import UbkiUploader.Backfill.ExpandLaws

/-!
# What the backfill leaves as it is

When `expand_subject` changes nothing but the deals that it expands: a subject with
several deals is to be left untouched, but only the first slice of each of its deals is
kept.
-/

namespace UbkiUploader

variable {I : Interpreter} {maxStep : Int} {includeFinal includeMultiDeal : Bool}
  {stats : ExpandStats}

-- ---------------------------------------------------------------------------
-- Loops over deals
-- ---------------------------------------------------------------------------

variable {step : Json → ExpandStats → Except PyError (Json × ExpandStats)}

theorem eachDeal_eq_ok {deals : List Json} (h : eachDeal step deals stats = .ok made) :
    List.Forall₂ (fun deal out => ∃ before after,
      step deal before = .ok (out, after)) deals made.1 := by
  induction deals generalizing stats made with
  | nil =>
    cases h
    exact .nil
  | cons deal deals ih =>
    obtain ⟨⟨out, after⟩, hout, h⟩ := Except.bind_eq_ok.mp h
    obtain ⟨rest, hrest, h⟩ := Except.bind_eq_ok.mp h
    cases h
    exact .cons ⟨stats, after, hout⟩ (ih hrest)

/-- A loop relates every deal to what comes out exactly when each step does. -/
theorem eachDeal_iff {R : Json → Json → Prop} {ok : Json → Prop}
    (hto : ∀ deal stats, ok deal → ∃ out, step deal stats = .ok out ∧ R deal out.1)
    (hof : ∀ deal stats out, step deal stats = .ok out → R deal out.1 → ok deal)
    (deals : List Json) (stats : ExpandStats) :
    (∃ made, eachDeal step deals stats = .ok made ∧ List.Forall₂ R deals made.1) ↔
      ∀ deal ∈ deals, ok deal := by
  induction deals generalizing stats with
  | nil => exact iff_of_true ⟨_, rfl, .nil⟩ (by simp)
  | cons deal deals ih =>
    rw [List.forall_mem_cons]
    constructor
    · rintro ⟨made, h, hrel⟩
      obtain ⟨out, hout, h⟩ := Except.bind_eq_ok.mp h
      obtain ⟨rest, hrest, h⟩ := Except.bind_eq_ok.mp h
      cases h
      obtain ⟨hone, hrel⟩ := List.forall₂_cons.mp hrel
      exact ⟨hof deal stats out hout hone, (ih out.2).mp ⟨rest, hrest, hrel⟩⟩
    · rintro ⟨hdeal, hdeals⟩
      obtain ⟨out, hout, hone⟩ := hto deal stats hdeal
      obtain ⟨rest, hrest, hrel⟩ := (ih out.2).mpr hdeals
      exact ⟨_,
        Except.bind_eq_ok.mpr ⟨out, hout, Except.bind_eq_ok.mpr ⟨rest, hrest, rfl⟩⟩,
        .cons hone hrel⟩

-- ---------------------------------------------------------------------------
-- Several deals
-- ---------------------------------------------------------------------------

def OneSlice (deal : Json) : Prop :=
  ∃ fields slice, deal = .obj fields ∧
    fields.lookup (Text.lit "deallife") = some (.arr [.obj slice])

theorem keepMultiDeal_of_oneSlice (h : OneSlice deal) (stats : ExpandStats) :
    ∃ out, keepMultiDeal I deal stats = .ok out ∧ DealKept I deal out.1 := by
  obtain ⟨fields, slice, rfl, hlife⟩ := h
  have hget : Json.getOr fields (Text.lit "deallife") = some (.arr [.obj slice]) := by
    rw [Json.getOr, hlife]
    rfl
  have hstep : keepMultiDeal I (.obj fields) stats =
      .ok (.obj (keepDeal I fields slice stats).1, (keepDeal I fields slice stats).2) := by
    rw [keepMultiDeal, hget]
    rfl
  exact ⟨_, hstep, keepDeal_kept hlife stats⟩

theorem SliceKept.obj {s : Json} (h : SliceKept I s (.obj slice)) :
    ∃ fields, s = .obj fields := by
  rcases h with h | ⟨fields, rfl, -⟩
  · exact ⟨slice, h.symm⟩
  · exact ⟨fields, rfl⟩

theorem keepMultiDeal_eq_ok (h : keepMultiDeal I deal stats = .ok made) :
    ∃ fields template, deal = .obj fields ∧
    made.1 = .obj (keepDeal I fields template stats).1 := by
  unfold keepMultiDeal at h
  split at h
  · rename_i fields
    obtain ⟨first, -, h⟩ := Except.bind_eq_ok.mp h
    obtain ⟨template, -, h⟩ := Except.bind_eq_ok.mp h
    exact ⟨fields, template, rfl, congrArg (·.1) (Except.ok.inj h).symm⟩
  · cases h

/-- Any other deal raises, or comes out with another slice, or with fewer. -/
theorem oneSlice_of_kept (h : keepMultiDeal I deal stats = .ok made)
    (hkept : DealKept I deal made.1) : OneSlice deal := by
  obtain ⟨fields, template, rfl, hmade⟩ := keepMultiDeal_eq_ok h
  -- whatever there was, the deal now has one slice
  have hout : (keepDeal I fields template stats).1.lookup (Text.lit "deallife") =
      some (slicesValue [(clean I template stats).1]) := by
    rw [keepDeal, Json.lookup_setField, if_pos rfl]
  rw [hmade] at hkept
  rcases hkept with hsame | ⟨fields', slices, slices', heq, hlife, hslices, hset⟩
  · rw [Json.obj.inj hsame] at hout
    exact ⟨_, _, rfl, hout⟩
  · cases heq
    rw [Json.obj.inj hset, Json.lookup_setField, if_pos rfl, slicesValue, Option.some.injEq,
      Json.arr.injEq] at hout
    subst hout
    obtain ⟨s, rest, hs, hrest, rfl⟩ := List.forall₂_cons_right_iff.mp hslices
    cases hrest
    obtain ⟨slice, rfl⟩ := hs.obj
    exact ⟨_, _, rfl, hlife⟩

-- ---------------------------------------------------------------------------
-- Subjects
-- ---------------------------------------------------------------------------

/-- A deal that `expand_deal` counts as expanded. -/
def ExpandedTo (I : Interpreter) (maxStep : Int) (includeFinal : Bool) (deal out : Json) : Prop :=
  ∃ before after, expandDeal I maxStep includeFinal deal before = .ok (out, after) ∧
    after.dealsExpanded = before.dealsExpanded + 1

def Several (includeMultiDeal : Bool) (deals : List Json) : Prop :=
  deals.length > 1 ∧ includeMultiDeal = false

def OnlyExpanded (I : Interpreter) (maxStep : Int) (includeFinal includeMultiDeal : Bool)
    (subject out : Fields) : Prop :=
  ∃ deals outs, subjectDeals subject = .ok deals ∧
    out = Json.setField (Text.lit "deals") (.arr outs) subject ∧
    List.Forall₂ (fun deal out => DealKept I deal out ∨
      ¬Several includeMultiDeal deals ∧ ExpandedTo I maxStep includeFinal deal out) deals outs

/-- When everything but the expanded deals is left as it is. -/
theorem expandSubject_frame (I : Interpreter) (subject : Fields) (stats : ExpandStats)
    (maxStep : Int) (includeFinal includeMultiDeal : Bool) :
    (∃ out stats', expandSubject I subject stats maxStep includeFinal includeMultiDeal =
        .ok (out, stats') ∧
        OnlyExpanded I maxStep includeFinal includeMultiDeal subject out) ↔
      ∃ deals, subjectDeals subject = .ok deals ∧ ∀ deal ∈ deals,
        (Several includeMultiDeal deals → OneSlice deal) ∧
        (¬Several includeMultiDeal deals → Guarded I maxStep includeFinal deal) := by
  cases hdeals : subjectDeals subject with
  | error e => simp [expandSubject, hdeals]
  | ok deals =>
    have hrun : (∃ out stats',
      expandSubject I subject stats maxStep includeFinal includeMultiDeal =
          .ok (out, stats') ∧
            OnlyExpanded I maxStep includeFinal includeMultiDeal subject out) ↔
        ∃ made, expandDeals I maxStep includeFinal includeMultiDeal deals stats = .ok made ∧
          List.Forall₂ (fun deal out => DealKept I deal out ∨
            ¬Several includeMultiDeal deals ∧ ExpandedTo I maxStep includeFinal deal out)
            deals made.1 := by
      simp only [expandSubject, hdeals, Except.ok_bind, Except.bind_eq_ok]
      constructor
      · rintro ⟨_, _, ⟨made, hmade, h⟩, deals', outs, hdeals', hout, hrel⟩
        cases h
        cases hdeals.symm.trans hdeals'
        have houts := congrArg (List.lookup (Text.lit "deals")) hout
        rw [Json.lookup_setField, Json.lookup_setField, if_pos rfl, if_pos rfl, Option.some.injEq,
          Json.arr.injEq] at houts
        exact ⟨made, hmade, houts ▸ hrel⟩
      · rintro ⟨made, hmade, hrel⟩
        exact ⟨_, made.2, ⟨made, hmade, rfl⟩, deals, made.1, hdeals, rfl, hrel⟩
    rw [hrun, expandDeals]
    simp only [Except.ok.injEq, exists_eq_left']
    by_cases hseveral : Several includeMultiDeal deals
    · rw [if_pos (show deals.length > 1 ∧ includeMultiDeal = false from hseveral)]
      simp only [hseveral, not_true_eq_false, false_and, or_false, true_implies, false_implies,
        and_true]
      exact eachDeal_iff (fun deal stats h => keepMultiDeal_of_oneSlice h stats)
        (fun deal stats made => oneSlice_of_kept) _ _
    · rw [if_neg (show ¬(deals.length > 1 ∧ includeMultiDeal = false) from hseveral)]
      simp only [hseveral, not_false_eq_true, true_and, true_implies, false_implies]
      refine eachDeal_iff (fun deal stats h => ?_)
        (fun deal stats made h _ => (expandDeal_isOk deal stats).mp ⟨made, h⟩) _ _
      obtain ⟨made, hmade⟩ := (expandDeal_isOk deal stats).mpr h
      exact ⟨made, hmade,
        (expandDeal_kept hmade).imp_right fun hcount => ⟨stats, made.2, hmade, hcount⟩⟩

def twoMonthDeal : Json :=
  .obj [(Text.lit "deallife", .arr [.obj [(Text.lit "dlmonth", .int 1)],
    .obj [(Text.lit "dlmonth", .int 2)]])]

def bareDeal : Json := .obj [(Text.lit "deallife", .arr [])]

/-- One deal loses its second month and the other gets a slice it did not have. -/
theorem expandSubject_drops :
    expandSubject .ascii [(Text.lit "deals", .arr [twoMonthDeal, bareDeal])] {} 92 false false =
      .ok ([(Text.lit "deals", .arr [
          .obj [(Text.lit "deallife", .arr [.obj [(Text.lit "dlmonth", .int 1)]])],
          .obj [(Text.lit "deallife", .arr [.obj []])]])],
        { keptMultiDeal := 2 }) :=
  rfl

end UbkiUploader
