import UbkiUploader.Lib.Text

/-!
# Breaking text into lines

Python breaks text in two ways: a file opened in text mode ends a line at `\n`,
`\r` or `\r\n`, and `str.splitlines` at those and at eight more characters. Both
are `breakLines` with a set of breaking characters. A last line without a break
counts only if it is not empty.
-/

namespace Text

/-- The lines of a text; `line` is the part of the first already read. -/
def breakFrom (isBreak : Nat → Bool) (line : Text) : Text → List Text
  | [] => if line = [] then [] else [line]
  | [c] => if isBreak c then [line] else [line ++ [c]]
  | c :: d :: rest =>
    if c = 13 ∧ d = 10 then line :: breakFrom isBreak [] rest
    else if isBreak c then line :: breakFrom isBreak [] (d :: rest)
    else breakFrom isBreak (line ++ [c]) (d :: rest)

def breakLines (isBreak : Nat → Bool) (t : Text) : List Text := breakFrom isBreak [] t

/-- Where a file in text mode breaks. -/
def isNewline (c : Nat) : Bool := c = 10 || c = 13

/-- Where `str.splitlines` breaks. -/
def isLineBreak (c : Nat) : Bool :=
  (0x0A ≤ c && c ≤ 0x0D) || (0x1C ≤ c && c ≤ 0x1E) || c = 0x85 || c = 0x2028 || c = 0x2029

/-- `str.splitlines()` -/
def splitlines (t : Text) : List Text := breakLines isLineBreak t

/-- Lines as `"\n".join(lines) + "\n"` writes them. -/
def unlines (lines : List Text) : Text := lines.flatMap (· ++ [10])

-- ---------------------------------------------------------------------------
-- Reading back
-- ---------------------------------------------------------------------------

theorem join_newline {lines : List Text} (h : lines ≠ []) :
    join [10] lines ++ [10] = unlines lines := by
  induction lines with
  | nil => exact absurd rfl h
  | cons line lines ih =>
    cases lines with
    | nil => simp [join, unlines]
    | cons next lines =>
      have := ih (by simp)
      simp only [join, unlines] at this ⊢
      rw [List.intercalate_cons_cons, List.flatMap_cons, ← this]
      simp

theorem breakFrom_line (hnl : isBreak 10) (hcr : isBreak 13)
    (h : ∀ c ∈ line, isBreak c = false) :
    breakFrom isBreak pre (line ++ 10 :: rest) = (pre ++ line) :: breakFrom isBreak [] rest := by
  induction line generalizing pre with
  | nil =>
    cases rest with
    | nil => simp [breakFrom, hnl]
    | cons c rest => simp [breakFrom, hnl]
  | cons c line ih =>
    have hc : isBreak c = false := h c (by simp)
    have hrest : breakFrom isBreak (pre ++ [c]) (line ++ 10 :: rest) =
        (pre ++ [c] ++ line) :: breakFrom isBreak [] rest :=
      ih fun d hd => h d (List.mem_cons_of_mem _ hd)
    rw [List.append_assoc, List.singleton_append] at hrest
    rw [← hrest]
    cases line with
    | nil =>
      have hne : c ≠ 13 := fun e => by rw [e, hcr] at hc; cases hc
      simp [breakFrom, hc, hne]
    | cons d line =>
      have hd : isBreak d = false := h d (by simp)
      have hne : d ≠ 10 := fun e => by rw [e, hnl] at hd; cases hd
      simp [breakFrom, hc, hne]

theorem breakLines_unlines {lines : List Text} (hnl : isBreak 10) (hcr : isBreak 13)
    (h : ∀ line ∈ lines, ∀ c ∈ line, isBreak c = false) :
    breakLines isBreak (unlines lines) = lines := by
  unfold breakLines
  induction lines with
  | nil => rfl
  | cons line lines ih =>
    have hcons : unlines (line :: lines) = line ++ 10 :: unlines lines := by simp [unlines]
    rw [hcons, breakFrom_line hnl hcr (h line (by simp)), List.nil_append,
      ih fun l hl => h l (List.mem_cons_of_mem _ hl)]

theorem not_isBreak_of_mem_breakFrom (hpre : ∀ c ∈ pre, isBreak c = false)
    (hl : line ∈ breakFrom isBreak pre t) : ∀ c ∈ line, isBreak c = false := by
  fun_induction breakFrom isBreak pre t with
  | case1 => simp at hl
  | case2 pre h => simp_all
  | case3 pre c h => simp_all
  | case4 pre c h =>
    simp only [List.mem_singleton] at hl
    subst hl
    intro d hd
    rcases List.mem_append.mp hd with hd | hd
    · exact hpre d hd
    · simp_all
  | case5 pre c d rest h ih =>
    rcases List.mem_cons.mp hl with rfl | hl
    · exact hpre
    · exact ih (by simp) hl
  | case6 pre c d rest h hc ih =>
    rcases List.mem_cons.mp hl with rfl | hl
    · exact hpre
    · exact ih (by simp) hl
  | case7 pre c d rest h hc ih =>
    refine ih (fun e he => ?_) hl
    rcases List.mem_append.mp he with he | he
    · exact hpre e he
    · simp_all

theorem not_isBreak_of_mem_breakLines (hl : line ∈ breakLines isBreak t) :
    ∀ c ∈ line, isBreak c = false :=
  not_isBreak_of_mem_breakFrom (by simp) hl

theorem forall_mem_breakFrom {P : Nat → Prop} (hpre : ∀ c ∈ pre, P c) (ht : ∀ c ∈ t, P c)
    (hl : line ∈ breakFrom isBreak pre t) : ∀ c ∈ line, P c := by
  fun_induction breakFrom isBreak pre t with
  | case1 => simp at hl
  | case2 pre h => simp_all
  | case3 pre c h => simp_all
  | case4 pre c h =>
    rw [List.mem_singleton.mp hl, List.forall_mem_append]
    exact ⟨hpre, ht⟩
  | case5 pre c d rest h ih =>
    rcases List.mem_cons.mp hl with rfl | hl
    · exact hpre
    · exact ih (by simp) (fun e he => ht e (by simp [he])) hl
  | case6 pre c d rest h hc ih =>
    rcases List.mem_cons.mp hl with rfl | hl
    · exact hpre
    · exact ih (by simp) (fun e he => ht e (List.mem_cons_of_mem _ he)) hl
  | case7 pre c d rest h hc ih =>
    refine ih ?_ (fun e he => ht e (List.mem_cons_of_mem _ he)) hl
    rw [List.forall_mem_append]
    exact ⟨hpre, by simpa using ht c List.mem_cons_self⟩

theorem forall_mem_breakLines {P : Nat → Prop} (ht : ∀ c ∈ t, P c)
    (hl : line ∈ breakLines isBreak t) : ∀ c ∈ line, P c :=
  forall_mem_breakFrom (by simp) ht hl

-- ---------------------------------------------------------------------------
-- Two sets of breaks
-- ---------------------------------------------------------------------------

/-- Without its empty lines a text is what stands between the breaks: `\r\n` only
leaves one more empty piece. -/
theorem breakFrom_filter (hnl : isBreak 10) (hcr : isBreak 13) :
    (breakFrom isBreak pre t).filter (· ≠ []) =
      ((t.splitOnP isBreak).modifyHead (pre ++ ·)).filter (· ≠ []) := by
  have hnil (lines : List Text) : lines.modifyHead ([] ++ ·) = lines := by cases lines <;> rfl
  fun_induction breakFrom isBreak pre t with
  | case1 => simp
  | case2 pre h => simp [h]
  | case3 pre c h => simp [List.splitOnP_cons_eq_if_modifyHead, List.filter_cons, h]
  | case4 pre c h => simp [List.splitOnP_cons_eq_if_modifyHead, h]
  | case5 pre c d rest h ih =>
    obtain ⟨rfl, rfl⟩ := h
    rw [hnil] at ih
    rw [List.filter_cons, ih, List.splitOnP_cons_eq_if_modifyHead, if_pos hcr,
      List.splitOnP_cons_eq_if_modifyHead, if_pos hnl]
    simp [List.filter_cons]
  | case6 pre c d rest h hc ih =>
    rw [hnil] at ih
    rw [List.filter_cons, ih, List.splitOnP_cons_eq_if_modifyHead (x := c), if_pos hc]
    simp [List.filter_cons]
  | case7 pre c d rest h hc ih =>
    rw [ih, List.splitOnP_cons_eq_if_modifyHead (x := c), if_neg hc, List.modifyHead_modifyHead]
    simp [Function.comp_def]

/-- A filter that keeps no empty line sees only what stands between the breaks. -/
theorem filter_breakLines {keep : Text → Bool} (hnl : isBreak 10) (hcr : isBreak 13)
    (hkeep : keep [] = false) :
    (breakLines isBreak t).filter keep = (t.splitOnP isBreak).filter keep := by
  have hne (lines : List Text) : lines.filter keep = (lines.filter (· ≠ [])).filter keep := by
    rw [List.filter_filter]
    refine List.filter_congr fun line _ => ?_
    cases line with
    | nil => rw [hkeep, Bool.false_and]
    | cons => simp
  rw [hne, breakLines, breakFrom_filter hnl hcr, hne (t.splitOnP isBreak)]
  congr 2
  cases t.splitOnP isBreak <;> simp

theorem splitOnP_refine {narrow wide : Nat → Bool}
    (hsub : ∀ c, narrow c → wide c) (t : Text) :
    (t.splitOnP narrow).flatMap (List.splitOnP wide) = t.splitOnP wide := by
  induction t with
  | nil => simp
  | cons c t ih =>
    rw [List.splitOnP_cons_eq_if_modifyHead,
      List.splitOnP_cons_eq_if_modifyHead (p := wide), ← ih]
    cases hpieces : t.splitOnP narrow with
    | nil => exact absurd hpieces (List.splitOnP_ne_nil _ _)
    | cons piece pieces =>
      by_cases hc : narrow c
      · simp [hc, hsub c hc]
      · rw [if_neg hc, List.modifyHead_cons, List.flatMap_cons, List.flatMap_cons,
          List.splitOnP_cons_eq_if_modifyHead]
        cases hfirst : piece.splitOnP wide with
        | nil => exact absurd hfirst (List.splitOnP_ne_nil _ _)
        | cons first rest => split <;> simp

theorem mem_of_mem_splitOnP {t : Text} (h : piece ∈ t.splitOnP isBreak) :
    ∀ c ∈ piece, c ∈ t := by
  induction t generalizing piece with
  | nil =>
    rw [List.splitOnP_nil, List.mem_singleton] at h
    rw [h]
    exact fun c hc => hc
  | cons d t ih =>
    rw [List.splitOnP_cons_eq_if_modifyHead] at h
    cases hpieces : t.splitOnP isBreak with
    | nil => exact absurd hpieces (List.splitOnP_ne_nil _ _)
    | cons first rest =>
      rw [hpieces] at h ih
      intro c hc
      split at h
      · rcases List.mem_cons.mp h with rfl | h
        · cases hc
        · exact List.mem_cons_of_mem _ (ih h c hc)
      · rcases List.mem_cons.mp h with rfl | h
        · rcases List.mem_cons.mp hc with rfl | hc
          · exact List.mem_cons_self
          · exact List.mem_cons_of_mem _ (ih List.mem_cons_self c hc)
        · exact List.mem_cons_of_mem _ (ih (List.mem_cons_of_mem _ h) c hc)

/-- Lines that hold something solid come out alike exactly when none of them holds a
break of the other kind. -/
theorem filter_breakLines_eq_iff {narrow wide : Nat → Bool} (hsub : ∀ c, narrow c → wide c)
    (hnl : narrow 10) (hcr : narrow 13) (solid : Nat → Bool) (t : Text) :
    (breakLines narrow t).filter (·.any solid) = (breakLines wide t).filter (·.any solid) ↔
      ∀ line ∈ t.splitOnP narrow, line.any solid → ∀ c ∈ line, wide c = false := by
  have hnarrow : (breakLines narrow t).filter (·.any solid) =
      (t.splitOnP narrow).filter (·.any solid) := filter_breakLines hnl hcr rfl
  constructor
  · intro h line hline hsolid
    have hmem : line ∈ (breakLines wide t).filter (·.any solid) := by
      rw [← h, hnarrow]
      exact List.mem_filter.mpr ⟨hline, hsolid⟩
    exact not_isBreak_of_mem_breakLines (List.mem_filter.mp hmem).1
  · intro h
    rw [hnarrow, filter_breakLines (hsub _ hnl) (hsub _ hcr) rfl, ← splitOnP_refine hsub,
      List.filter_flatMap]
    -- a line that is kept is one piece, and the pieces of the others are not kept
    have hkept (lines : List Text) : lines.filter (·.any solid) =
        lines.flatMap fun line => if line.any solid then [line] else [] := by
      induction lines with
      | nil => rfl
      | cons line lines ih => rw [List.filter_cons, List.flatMap_cons, ← ih]; split <;> rfl
    rw [hkept]
    refine List.flatMap_congr fun line hline => ?_
    split
    · rename_i hsolid
      rw [List.splitOnP_eq_singleton (h line hline hsolid), List.filter_singleton, hsolid]
      rfl
    · rename_i hsolid
      refine (List.filter_eq_nil_iff.mpr fun piece hpiece hany => hsolid ?_).symm
      obtain ⟨c, hc, hcs⟩ := List.any_eq_true.mp hany
      exact List.any_eq_true.mpr ⟨c, mem_of_mem_splitOnP hpiece c hc, hcs⟩

end Text
