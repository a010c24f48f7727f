import UbkiUploader.Enricher.Identity
import UbkiUploader.Enricher.File
import UbkiUploader.Lib.JsonSound

/-!
# What the subjects are made of

A subject that `enrich_line` builds is a value as `json.loads` makes them, and nests
no deeper than the line it is built of. So what is written of it is read back.
-/

namespace UbkiUploader

open Json (Within)

variable {env : EnrichEnv}

-- ---------------------------------------------------------------------------
-- Blocks of texts
-- ---------------------------------------------------------------------------

structure FlatFields (fields : Fields) : Prop where
  nodup : (fields.map (·.1)).Nodup
  texts : ∀ f ∈ fields, ∃ t, f.2 = .str t

theorem FlatFields.good (h : FlatFields fields) : (Json.obj fields).Good F := by
  refine ⟨h.nodup, Json.goodFields_iff.mpr fun f hf => ?_⟩
  obtain ⟨t, ht⟩ := h.texts f hf
  rw [ht]
  trivial

theorem FlatFields.depth (h : FlatFields fields) : (Json.obj fields).depth ≤ 1 := by
  rw [Json.depth, Nat.add_le_add_iff_right, Json.depthFields_le_iff]
  intro f hf
  obtain ⟨t, ht⟩ := h.texts f hf
  rw [ht]
  exact Nat.le_refl 0

theorem FlatFields.within (h : FlatFields fields) (hlevels : 2 ≤ levels) :
    Within F levels (.arr [.obj fields]) := by
  refine ⟨⟨h.good, trivial⟩, ?_⟩
  have := h.depth
  simp only [Json.depth, Json.depthItems] at this ⊢
  omega

theorem exists_text_of_mem_textField (h : f ∈ [textField key t]) : ∃ t, f.2 = .str t :=
  ⟨t, by rw [List.mem_singleton.mp h]; rfl⟩

theorem exists_text_of_mem_optionalField (h : f ∈ optionalField key t) : ∃ t, f.2 = .str t := by
  cases t with
  | none => cases h
  | some t => exact exists_text_of_mem_textField h

theorem exists_text_of_mem_filledField (h : f ∈ filledField key t) : ∃ t, f.2 = .str t := by
  unfold filledField at h
  split at h
  · cases h
  · exact exists_text_of_mem_textField h

theorem Ident.flat (i : Ident) : FlatFields i.fields where
  nodup := by
    unfold Ident.fields filledField optionalField
    split <;> split <;> simp only [textField, List.map_append, List.map_cons,
      List.map_nil] <;> decide
  texts := by
    intro f hf
    simp only [Ident.fields, List.mem_append, List.mem_cons, List.not_mem_nil, or_false] at hf
    rcases hf with ((hf | hf) | hf) | hf
    · rcases hf with rfl | rfl | rfl | rfl | rfl <;> exact ⟨_, rfl⟩
    · exact exists_text_of_mem_filledField hf
    · rcases hf with rfl | rfl <;> exact ⟨_, rfl⟩
    · exact exists_text_of_mem_optionalField hf

theorem Doc.flat (d : Doc) : FlatFields d.fields where
  nodup := by
    unfold Doc.fields optionalField
    split <;> split <;> split <;> simp only [textField, List.map_append, List.map_cons,
      List.map_nil] <;> decide
  texts := by
    intro f hf
    simp only [Doc.fields, List.mem_append, List.mem_cons, List.not_mem_nil, or_false] at hf
    rcases hf with ((hf | hf) | hf) | hf
    · rcases hf with rfl | rfl | rfl | rfl | rfl <;> exact ⟨_, rfl⟩
    · exact exists_text_of_mem_optionalField hf
    · exact exists_text_of_mem_optionalField hf
    · exact exists_text_of_mem_optionalField hf

theorem Contact.flat (c : Contact) : FlatFields c.fields where
  nodup := by
    simp only [Contact.fields, textField, List.map_cons, List.map_nil]
    decide
  texts := by
    intro f hf
    simp only [Contact.fields, List.mem_cons, List.not_mem_nil, or_false] at hf
    rcases hf with rfl | rfl | rfl <;> exact ⟨_, rfl⟩

theorem buildAddr_keys (row : Row) (vdate : Text) :
    List.Sublist ((buildAddr row vdate).fields.map (·.1))
    [Text.lit "adindex", Text.lit "adcity", Text.lit "adstreet", Text.lit "adhome",
      Text.lit "adcorp", Text.lit "adflat"] := by
  have hfilter (l : List (String × Cell)) : List.Sublist ((l.filterMap fun p =>
      if p.2.stripped = [] then none else some (Text.lit p.1, p.2.stripped)).map (·.1))
        (l.map fun p => Text.lit p.1) := by
    induction l with
    | nil => exact List.Sublist.slnil
    | cons p l ih =>
      obtain ⟨target, source⟩ := p
      by_cases h : source.stripped = []
      · simp only [List.filterMap_cons, h, if_true]
        exact ih.cons _
      · simp only [List.filterMap_cons, h, if_false]
        exact ih.cons_cons _
  exact hfilter _

theorem buildAddr_flat (row : Row) (vdate : Text) : FlatFields (buildAddr row vdate).toFields where
  nodup := by
    have hsub : List.Sublist ((buildAddr row vdate).toFields.map (·.1))
        ([Text.lit "vdate", Text.lit "lng", Text.lit "adtype", Text.lit "adcountry"] ++
          [Text.lit "adindex", Text.lit "adcity", Text.lit "adstreet", Text.lit "adhome",
            Text.lit "adcorp", Text.lit "adflat"]) := by
      rw [Addr.toFields, List.map_append, List.map_map]
      exact (List.Sublist.refl _).append (buildAddr_keys row vdate)
    exact hsub.nodup (by decide)
  texts := by
    intro f hf
    simp only [Addr.toFields, List.mem_append, List.mem_cons, List.not_mem_nil, or_false,
      List.mem_map] at hf
    rcases hf with hf | ⟨p, -, rfl⟩
    · rcases hf with rfl | rfl | rfl | rfl <;> exact ⟨_, rfl⟩
    · exact ⟨_, rfl⟩

-- ---------------------------------------------------------------------------
-- Subjects
-- ---------------------------------------------------------------------------

/-- A subject that `enrich_line` builds of an object that `json.loads` read. -/
def Subject.Built (env : EnrichEnv) (s : Subject) : Prop :=
  ∃ rows peers line stats, Within env.floats env.levels (.obj line) ∧
    enrichLine env.ucd env.config rows peers line = .ok (s, stats)

theorem Within.lookup {fields : Fields} (h : Within F (levels + 1) (.obj fields))
    (hv : fields.lookup key = some v) : Within F levels v := by
  refine ⟨Json.good_lookup h.1 hv, ?_⟩
  obtain ⟨before, after, rfl, -⟩ := List.lookup_eq_some_iff.mp hv
  have hdepth := h.2
  rw [Json.depth, Nat.add_le_add_iff_right, Json.depthFields_le_iff] at hdepth
  exact hdepth (key, v) (by simp)

theorem Within.field {fields : Fields} (h : Within F levels (.obj fields))
    (hv : fields.lookup key = some v) : Within F levels v := by
  cases levels with
  | zero => exact absurd h.2 (by simp [Json.depth])
  | succ levels =>
    have := Within.lookup h hv
    exact ⟨this.1, this.2.trans (Nat.le_succ _)⟩

theorem Within.obj {fields : Fields} (hnodup : (fields.map (·.1)).Nodup)
    (h : ∀ f ∈ fields, Within F levels f.2) : Within F (levels + 1) (.obj fields) := by
  refine ⟨⟨hnodup, Json.goodFields_iff.mpr fun f hf => (h f hf).1⟩, ?_⟩
  rw [Json.depth, Nat.add_le_add_iff_right, Json.depthFields_le_iff]
  exact fun f hf => (h f hf).2

theorem Within.items {items : List Json} (h : Within F (levels + 1) (.arr items)) :
    ∀ v ∈ items, Within F levels v := by
  have hdepth := h.2
  rw [Json.depth, Nat.add_le_add_iff_right, Json.depthItems_le_iff] at hdepth
  exact fun v hv => ⟨Json.goodItems_iff.mp h.1 v hv, hdepth v hv⟩

theorem outDeal_within {deal : Fields} (h : Within F levels (.obj deal)) :
    Within F levels (.obj (outDeal config (.obj deal))) := by
  rw [outDeal]
  split
  · exact h
  · rename_i hnone
    obtain ⟨⟨hnodup, hfields⟩, hdepth⟩ := h
    have hkey : Text.lit "dlvidobes" ∉ deal.map (·.1) := by
      intro hmem
      obtain ⟨f, hf, hkey⟩ := List.mem_map.mp hmem
      refine hnone (List.lookup_isSome_iff.mpr ⟨f, hf, ?_⟩)
      simp [hkey]
    refine ⟨⟨?_, Json.goodFields_iff.mpr ?_⟩, ?_⟩
    · rw [List.map_append, List.nodup_append]
      refine ⟨hnodup, List.nodup_singleton _, ?_⟩
      rintro k hk k' hk' rfl
      obtain rfl : k = Text.lit "dlvidobes" := List.mem_singleton.mp hk'
      exact hkey hk
    · intro f hf
      rcases List.mem_append.mp hf with hf | hf
      · exact Json.goodFields_iff.mp hfields f hf
      · rw [List.mem_singleton.mp hf]
        trivial
    · rw [Json.depth] at hdepth ⊢
      refine (Nat.add_le_add_right (Json.depthFields_le_iff.mpr fun f hf => ?_) 1).trans hdepth
      rcases List.mem_append.mp hf with hf | hf
      · exact Json.depthFields_le_iff.mp le_rfl f hf
      · rw [List.mem_singleton.mp hf]
        exact Nat.zero_le _

theorem dealRow_obj (h : dealRow u rows deal = .ok row) : ∃ fields, deal = .obj fields := by
  cases deal with
  | obj fields => exact ⟨fields, rfl⟩
  | _ => exact absurd rfl (dealRow_eq_ok.mp h).1

theorem Stages.Ran.deals_obj (h : Stages.Ran u rows peers line s) :
    ∀ deal ∈ s.deals, ∃ fields, deal = .obj fields := by
  intro deal hdeal
  obtain ⟨row, -, hrow⟩ := h.dealRows.exists_right hdeal
  exact dealRow_obj hrow

theorem Stages.Ran.three_levels (h : Stages.Ran u rows peers line s)
    (hline : Within F levels (.obj line)) : ∃ n, levels = n + 3 := by
  obtain ⟨hlookup, hne⟩ := lineDeals_eq_ok h.deals
  obtain ⟨deal, hdeal⟩ := List.exists_mem_of_ne_nil _ hne
  obtain ⟨fields, rfl⟩ := h.deals_obj deal hdeal
  obtain ⟨l₁, l₂, rfl, -⟩ := List.lookup_eq_some_iff.mp hlookup
  have hdepth := hline.2
  have hfield : Json.depth (.arr s.deals) ≤ Json.depthFields
    (l₁ ++ (Text.lit "deals", .arr s.deals) :: l₂) :=
    Json.depthFields_le_iff.mp le_rfl (Text.lit "deals", .arr s.deals) (by simp)
  have hitem := Json.depthItems_le_iff.mp le_rfl _ hdeal
  simp only [Json.depth] at hdepth hfield hitem
  exact ⟨levels - 3, by omega⟩

/-- The package of a line is a value as `loads` makes them, no deeper than the line. -/
theorem Subject.Built.within {s : Subject} (h : s.Built env) :
    Within env.floats env.levels s.toJson := by
  obtain ⟨rows, peers, line, stats, hline, h⟩ := h
  obtain ⟨stages, hran, rfl, -⟩ := enrichLine_eq_ok.mp h
  obtain ⟨n, hn⟩ := hran.three_levels hline
  rw [hn] at hline ⊢
  have hdeals : Within env.floats (n + 2) (.arr (stages.deals.map fun deal =>
      .obj (outDeal env.config deal))) := by
    have hin := Within.lookup hline (lineDeals_eq_ok hran.deals).1
    have hout (deal : Json) (hdeal : deal ∈ stages.deals) :
        Within env.floats (n + 1) (.obj (outDeal env.config deal)) := by
      obtain ⟨fields, rfl⟩ := hran.deals_obj deal hdeal
      exact outDeal_within (Within.items hin _ hdeal)
    refine ⟨Json.goodItems_iff.mpr ?_, ?_⟩
    · exact List.forall_mem_map.mpr fun deal hdeal => (hout deal hdeal).1
    · rw [Json.depth, Nat.add_le_add_iff_right, Json.depthItems_le_iff]
      exact List.forall_mem_map.mpr fun deal hdeal => (hout deal hdeal).2
  refine Within.obj ?_ fun f hf => ?_
  · simp only [filledField]
    split <;> simp only [textField, List.map_append, List.map_cons, List.map_nil] <;> decide
  · have htext {key : String} {t : Text} (hf : f = textField key t) :
        Within env.floats (n + 2) f.2 := by
      rw [hf]
      exact ⟨trivial, Nat.zero_le _⟩
    simp only [List.mem_append, List.mem_cons, List.not_mem_nil, or_false] at hf
    rcases hf with ((hf | hf) | hf)
    · rcases hf with hf | hf | hf | hf | hf | hf <;> exact htext hf
    · obtain ⟨t, ht⟩ := exists_text_of_mem_filledField hf
      rw [ht]
      exact ⟨trivial, Nat.zero_le _⟩
    · rcases hf with hf | rfl | rfl | rfl | rfl | rfl
      · exact htext hf
      · exact (Ident.flat _).within (by omega)
      · exact (Doc.flat _).within (by omega)
      · exact (buildAddr_flat _ _).within (by omega)
      · simpa [Stages.subject, Function.comp_def] using hdeals
      · exact (Contact.flat _).within (by omega)

end UbkiUploader
