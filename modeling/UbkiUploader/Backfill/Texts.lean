import UbkiUploader.Backfill.Chain
import UbkiUploader.Backfill.Frame
import UbkiUploader.Lib.JsonSound

/-!
# What is written of a subject

What `expand_subject` returns is again a value as `json.loads` makes them, and it can be
encoded when those texts of the subject can that the expansion leaves in.
-/

namespace UbkiUploader

open Calendar (Date)

variable {I : Interpreter} {maxStep : Int} {includeFinal : Bool} {stats : ExpandStats}

def EncodesBut (keys : List Text) (fields : Fields) : Prop :=
  ∀ f ∈ fields, f.1 ∉ keys → f.1.Encodes ∧ f.2.AllTexts Text.Encodes

theorem encodesBut_nil {fields : Fields} :
    EncodesBut [] fields ↔ (Json.obj fields).AllTexts Text.Encodes := by
  rw [Json.AllTexts, Json.allTextsFields_iff]
  simp [EncodesBut]

theorem EncodesBut.mono {fields : Fields} (h : EncodesBut keys fields) (hsub : keys ⊆ keys') :
    EncodesBut keys' fields :=
  fun f hf hkey => h f hf fun hmem => hkey (hsub hmem)

theorem encodesBut_eraseField {fields : Fields} :
    EncodesBut keys (eraseField key fields) ↔ EncodesBut (key :: keys) fields := by
  simp only [EncodesBut, eraseField, List.mem_filter, decide_eq_true_eq, List.mem_cons, not_or,
    and_imp]

theorem good_eraseField {fields : Fields} (h : (Json.obj fields).Good F) :
    (Json.obj (eraseField key fields)).Good F :=
  ⟨h.1.sublist ((List.filter_sublist).map _),
    Json.goodFields_iff.mpr fun f hf => Json.goodFields_iff.mp h.2 f (List.mem_filter.mp hf).1⟩

theorem encodesBut_setField {fields : Fields} (h : (fields.map (·.1)).Nodup)
    (hkey : key.Encodes) :
    EncodesBut keys (Json.setField key v fields) ↔
      (key ∉ keys → v.AllTexts Text.Encodes) ∧ EncodesBut (key :: keys) fields := by
  simp only [EncodesBut, Json.mem_setField_iff h, List.mem_cons, not_or]
  constructor
  · intro hall
    exact ⟨fun hnew => (hall _ (.inl rfl) hnew).2,
      fun f hf hne => hall f (.inr ⟨hf, hne.1⟩) hne.2⟩
  · rintro ⟨hv, hall⟩ f (rfl | ⟨hf, hne⟩) hnew
    · exact ⟨hkey, hv hnew⟩
    · exact hall f hf ⟨hne, hnew⟩

theorem allTexts_slicesValue {slices : List Fields} :
    (slicesValue slices).AllTexts Text.Encodes ↔ ∀ s ∈ slices, EncodesBut [] s := by
  rw [slicesValue, Json.AllTexts, Json.allTextsItems_iff, List.forall_mem_map]
  exact forall₂_congr fun s _ => encodesBut_nil.symm

theorem good_slicesValue {slices : List Fields} (h : ∀ s ∈ slices, (Json.obj s).Good F) :
    (slicesValue slices).Good F :=
  Json.goodItems_iff.mpr (List.forall_mem_map.mpr h)

-- ---------------------------------------------------------------------------
-- Slices
-- ---------------------------------------------------------------------------

/-- The keys that `_clean` takes out of a slice. -/
def cleanedKeys (I : Interpreter) (s : Fields) : List Text :=
  if parseIso I (getField s "dldff") = none then [Text.lit "dldff"] else []

/-- The keys that `_make_slice` sets. -/
def madeKeys : List Text :=
  [Text.lit "dlmonth", Text.lit "dlyear", Text.lit "dldateclc", Text.lit "dldayexp"]

theorem encodesBut_clean (s : Fields) (stats : ExpandStats) :
    EncodesBut keys (clean I s stats).1 ↔ EncodesBut (cleanedKeys I s ++ keys) s := by
  unfold clean cleanedKeys
  by_cases hdate : parseIso I (getField s "dldff") = none
  · rw [if_pos hdate]
    split
    · exact encodesBut_eraseField
    · rename_i habsent
      -- there is no such key
      have hnone : s.lookup (Text.lit "dldff") = none := by
        rw [← Option.not_isSome_iff_eq_none]
        exact fun hsome => habsent ⟨hsome, hdate⟩
      refine ⟨fun h => h.mono (List.subset_append_right _ _), fun h f hf hkey => h f hf ?_⟩
      intro hmem
      rcases List.mem_cons.mp hmem with heq | hmem
      · have := List.lookup_eq_none_iff.mp hnone f hf
        simp [heq] at this
      · exact hkey hmem
  · rw [if_neg hdate, if_neg fun h => hdate h.2, List.nil_append]

theorem good_clean (h : (Json.obj s).Good F) (stats : ExpandStats) :
    (Json.obj (clean I s stats).1).Good F := by
  unfold clean
  split
  · exact good_eraseField h
  · exact h

theorem ordinal_lt (d : Date) : d.ordinal < 10 ^ 10 := by
  have hyears (y : Nat) : Calendar.daysBeforeYear y ≤ 366 * y := by
    induction y with
    | zero => exact Nat.le_refl 0
    | succ y ih =>
      rw [Calendar.daysBeforeYear, Calendar.yearLength]
      split <;> omega
  have hmonths (m : Nat) : Calendar.daysBeforeMonth d.year m ≤ 31 * m := by
    induction m using Calendar.daysBeforeMonth.induct with
    | case1 => exact Nat.zero_le _
    | case2 => exact Nat.zero_le _
    | case3 m ih =>
      have := Calendar.daysInMonth_le d.year (m + 1)
      rw [Calendar.daysBeforeMonth]
      omega
  have hy := hyears d.year
  have hm := hmonths d.month
  have hd := d.day_valid
  have := Calendar.daysInMonth_le d.year d.month
  have := d.year_valid
  have := d.month_valid
  rw [Date.ordinal]
  omega

/-- The fields that `_make_slice` sets in a slice. -/
def madeFields (clc : Date) (days : Nat) (s : Fields) : Fields :=
  Json.setField (Text.lit "dldayexp") (.int days)
    (Json.setField (Text.lit "dldateclc") (.str clc.isoformat)
      (Json.setField (Text.lit "dlyear") (.int clc.year)
        (Json.setField (Text.lit "dlmonth") (.int clc.month) s)))

theorem makeSlice_eq : (makeSlice I template dpf clc historical stats).1 =
    if historical then
      eraseField (Text.lit "dldff") (madeFields clc (daysSince clc dpf) (clean I template stats).1)
    else madeFields clc (daysSince clc dpf) (clean I template stats).1 := by
  cases historical <;> rfl

theorem good_madeFields (h : (Json.obj s).Good F) (hdays : days < 10 ^ 10) :
    (Json.obj (madeFields clc days s)).Good F := by
  have hyear := clc.year_valid
  have hmonth := clc.month_valid
  have hclc : (Json.str clc.isoformat).Good F := trivial
  exact Json.good_setField (Json.good_setField (Json.good_setField (Json.good_setField h
    (Json.good_nat (by omega))) (Json.good_nat (by omega))) hclc) (Json.good_nat hdays)

theorem encodesBut_madeFields (h : (s.map (·.1)).Nodup) :
    EncodesBut keys (madeFields clc days s) ↔ EncodesBut (madeKeys ++ keys) s := by
  rw [madeFields, encodesBut_setField
      (Json.nodup_setField (Json.nodup_setField (Json.nodup_setField h))) (Text.encodes_lit _),
    encodesBut_setField (Json.nodup_setField (Json.nodup_setField h)) (Text.encodes_lit _),
    encodesBut_setField (Json.nodup_setField h) (Text.encodes_lit _),
    encodesBut_setField h (Text.encodes_lit _)]
  simp only [Json.AllTexts, Calendar.encodes_isoformat, implies_true, true_and]
  rfl

theorem good_makeSlice (h : (Json.obj template).Good F) :
    (Json.obj (makeSlice I template dpf clc historical stats).1).Good F := by
  have hdays : daysSince clc dpf < 10 ^ 10 := by
    have := ordinal_lt clc
    rw [daysSince]
    omega
  have hmade : (Json.obj (madeFields clc (daysSince clc dpf) (clean I template stats).1)).Good F :=
    good_madeFields (good_clean h stats) hdays
  rw [makeSlice_eq]
  split
  · exact good_eraseField hmade
  · exact hmade

theorem encodesBut_makeSlice (h : (Json.obj template).Good F) :
    EncodesBut [] (makeSlice I template dpf clc historical stats).1 ↔
      EncodesBut (cleanedKeys I template ++ (madeKeys ++
        if historical then [Text.lit "dldff"] else [])) template := by
  rw [makeSlice_eq, ← encodesBut_clean template stats]
  have hnodup := (good_clean (I := I) h stats).1
  split
  · rw [encodesBut_eraseField, encodesBut_madeFields hnodup]
  · rw [encodesBut_madeFields hnodup]

theorem mem_historicalSlices
    (h : historicalSlices I template dpf months stats = .ok (chain, stats'))
    (hs : s ∈ chain) : ∃ clc before, s = (makeSlice I template dpf clc true before).1 := by
  induction months generalizing chain stats with
  | nil =>
    cases h
    cases hs
  | cons p months ih =>
    obtain ⟨clc, -, h⟩ := Except.bind_eq_ok.mp h
    simp only at h
    split at h
    · exact ih h hs
    · obtain ⟨rest, hrest, h⟩ := Except.bind_eq_ok.mp h
      cases h
      rcases List.mem_cons.mp hs with rfl | hs
      · exact ⟨clc, stats, rfl⟩
      · exact ih hrest hs

-- ---------------------------------------------------------------------------
-- Deals
-- ---------------------------------------------------------------------------

theorem good_onlySlice (h : (Json.obj deal).Good F)
    (hslice : onlySlice (Json.getOr deal key) = .ok (some current)) : (Json.obj current).Good F :=
  Json.goodItems_iff.mp (Json.good_lookup h (onlySlice_eq_some hslice)) _ List.mem_cons_self

theorem good_keepDeal (h : (Json.obj deal).Good F) (hcurrent : (Json.obj current).Good F) :
    (Json.obj (keepDeal I deal current stats).1).Good F := by
  refine Json.good_setField h (good_slicesValue ?_)
  intro s hs
  rw [List.mem_singleton.mp hs]
  exact good_clean hcurrent stats

theorem encodesBut_keepDeal (h : (Json.obj deal).Good F) :
    EncodesBut [] (keepDeal I deal current stats).1 ↔
      EncodesBut (cleanedKeys I current) current ∧ EncodesBut [Text.lit "deallife"] deal := by
  rw [keepDeal, encodesBut_setField h.1 (Text.encodes_lit _), allTexts_slicesValue]
  simp only [List.not_mem_nil, not_false_eq_true, true_implies, List.mem_singleton,
    forall_eq, encodesBut_clean, List.append_nil]

theorem expandChain_slices (h : expandChain I deal current dpf endYear endMonth stats = .ok out) :
    ∃ chain, out.1 = Json.setField (Text.lit "deallife") (slicesValue chain) deal ∧
      (∀ s ∈ chain, ∃ clc historical before,
        s = (makeSlice I current dpf clc historical before).1) ∧
      ∃ s ∈ chain, ∃ clc before, s = (makeSlice I current dpf clc false before).1 := by
  obtain ⟨clc, chain, before, -, hhist, hout, -⟩ := expandChain_eq_ok h
  refine ⟨_, hout, ?_, _, List.mem_concat_self, clc, before, rfl⟩
  intro s hs
  rcases List.mem_append.mp hs with hs | hs
  · obtain ⟨clc', before', rfl⟩ := mem_historicalSlices hhist hs
    exact ⟨clc', true, before', rfl⟩
  · exact ⟨clc, false, before, List.mem_singleton.mp hs⟩

theorem good_expandChain (h : (Json.obj deal).Good F) (hcurrent : (Json.obj current).Good F)
    (hchain : expandChain I deal current dpf endYear endMonth stats = .ok out) :
    (Json.obj out.1).Good F := by
  obtain ⟨chain, hout, hslices, -⟩ := expandChain_slices hchain
  rw [hout]
  refine Json.good_setField h (good_slicesValue ?_)
  intro s hs
  obtain ⟨clc, historical, before, rfl⟩ := hslices s hs
  exact good_makeSlice hcurrent

theorem encodesBut_expandChain (h : (Json.obj deal).Good F) (hcurrent : (Json.obj current).Good F)
    (hchain : expandChain I deal current dpf endYear endMonth stats = .ok out) :
    EncodesBut [] out.1 ↔ EncodesBut (cleanedKeys I current ++ madeKeys) current ∧
      EncodesBut [Text.lit "deallife"] deal := by
  obtain ⟨chain, hout, hslices, last, hlast, clc, before, rfl⟩ := expandChain_slices hchain
  rw [hout, encodesBut_setField h.1 (Text.encodes_lit _), allTexts_slicesValue]
  simp only [List.not_mem_nil, not_false_eq_true, true_implies]
  refine and_congr_left fun _ => ⟨fun hall => ?_, fun hkeys s hs => ?_⟩
  · have := (encodesBut_makeSlice hcurrent).mp (hall _ hlast)
    simpa using this
  · -- the other slices have less of the current one
    obtain ⟨clc', historical, before', rfl⟩ := hslices s hs
    refine (encodesBut_makeSlice hcurrent).mpr (hkeys.mono ?_)
    rw [← List.append_assoc]
    exact List.subset_append_left _ _

theorem Fate.good (hfate : Fate I maxStep includeFinal deal stats out)
    (h : (Json.obj deal).Good F) :
    (Json.obj out.1).Good F := by
  cases hfate with
  | unexpected => exact h
  | kept current keep hslice => exact good_keepDeal h (good_onlySlice h hslice)
  | expanded current dpf endYear endMonth _ hslice _ _ _ _ hchain =>
    exact good_expandChain h (good_onlySlice h hslice) hchain

theorem good_expandDeal (hrun : expandDeal I maxStep includeFinal deal stats = .ok made)
    (h : deal.Good F) : made.1.Good F := by
  unfold expandDeal at hrun
  split at hrun
  · rename_i fields
    obtain ⟨out, hout, hrun⟩ := Except.bind_eq_ok.mp hrun
    cases hrun
    exact (expandFields_fate hout).good h
  · cases hrun

-- ---------------------------------------------------------------------------
-- First slices
-- ---------------------------------------------------------------------------

theorem good_firstSlice (h : (Json.obj deal).Good F)
    (hslice : firstSlice (Json.getOr deal key) = .ok slice) : slice.Good F := by
  unfold firstSlice at hslice
  split at hslice <;> cases hslice
  · exact ⟨List.nodup_nil, trivial⟩
  · rename_i hget
    have hlookup := (Option.filter_eq_some_iff.mp hget).1
    exact Json.goodItems_iff.mp (Json.good_lookup h hlookup) _ List.mem_cons_self
  · trivial

theorem good_dictItem (h : item.Good F) (hitem : dictItem item = .ok out) : out.2.Good F := by
  unfold dictItem at hitem
  split at hitem
  · obtain ⟨key, -, hitem⟩ := Except.bind_eq_ok.mp hitem
    cases hitem
    exact Json.goodItems_iff.mp h _ (by simp)
  · cases hitem
    trivial
  · cases hitem
    trivial
  all_goals cases hitem

theorem good_toDict (h : v.Good F) (hdict : toDict v = .ok fields) : (Json.obj fields).Good F := by
  unfold toDict at hdict
  split at hdict
  · cases hdict
    exact h
  · rename_i items
    obtain ⟨made, hmade, hdict⟩ := Except.bind_eq_ok.mp hdict
    cases hdict
    have hmade := Except.mapM_eq_ok.mp hmade
    have hvalues : ∀ f ∈ made, f.2.Good F := by
      intro f hf
      obtain ⟨item, hitem, hout⟩ := hmade.exists_left hf
      exact good_dictItem (Json.goodItems_iff.mp h item hitem) hout
    obtain ⟨hnodup, hgood⟩ := Json.dictOf_good (·.Good F) hvalues
    exact ⟨hnodup, Json.goodFields_iff.mpr hgood⟩
  · cases hdict
    exact ⟨List.nodup_nil, trivial⟩
  all_goals cases hdict

end UbkiUploader
