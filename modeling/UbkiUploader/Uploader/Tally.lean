import UbkiUploader.Lib.LastWrite
import UbkiUploader.Uploader.Send
import UbkiUploader.Uploader.Trace

/-!
# What the summary counts

The summary counts the commits made with `count_summary`. What a pass did to its
records is told by the last commit of each. `settledAs_append` is the difference
between the two: the records deferred by the first wave that the resend wave did
not commit again.
-/

namespace UbkiUploader

def RunSummary.recordsOf (s : RunSummary) : Outcome → Nat
  | .sent => s.recordsSent
  | .failed => s.recordsFailed
  | .rejected => s.recordsRejected

/-- A commit that adds to the number for `o`. -/
def Commit.counts (o : Outcome) (c : Commit) : Bool := c.countSummary && c.result.status = o

/-- The number of distinct records whose last commit has the outcome `o`. -/
def settledAs (o : Outcome) (cs : List Commit) : Nat :=
  LastWrite.tally Commit.key (·.result.status = o) cs

-- ---------------------------------------------------------------------------
-- The summary
-- ---------------------------------------------------------------------------

theorem tally_recordsOf (s : RunSummary) (r : UploadResult) (o : Outcome) :
    (s.tally r).recordsOf o = s.recordsOf o + if r.status = o then 1 else 0 := by
  unfold RunSummary.tally
  cases hr : r.status <;> cases o <;> simp [RunSummary.recordsOf]

@[simp] theorem abort_recordsOf (s : RunSummary) : (s.abort e).recordsOf o = s.recordsOf o := by
  cases o <;> rfl

theorem commit_recordsOf (p : Pass) (c : Commit) (o : Outcome) :
    (p.commit env c).summary.recordsOf o =
      p.summary.recordsOf o + if c.counts o then 1 else 0 := by
  simp only [Pass.commit, Commit.counts]
  split
  · rename_i h
    rw [tally_recordsOf]
    simp [h]
  · rename_i h
    simp [h]

theorem replay_recordsOf (p : Pass) :
    (p.replay env tr).summary.recordsOf o =
      p.summary.recordsOf o + (commits tr).countP (Commit.counts o) := by
  induction tr using List.reverseRecOn with
  | nil => simp
  | append_singleton tr e ih =>
    rw [Pass.replay_snoc, commits_append, List.countP_append]
    cases e with
    | commit c =>
      rw [Pass.after, commit_recordsOf, ih, commits_commit, List.countP_singleton]
      omega
    | submit r => simpa [Pass.after] using ih
    | auth => simpa [Pass.after] using ih
    | reauth => simpa [Pass.after] using ih

-- ---------------------------------------------------------------------------
-- The records
-- ---------------------------------------------------------------------------

variable {first again : List Commit} {o : Outcome}

/-- Commits that leave out only deferred failures, and then commits for some of
the records left out. -/
structure Deferring (first again : List Commit) : Prop where
  distinct : (first.map Commit.key).Nodup
  failed : ∀ c ∈ first, c.deferred → c.result.status = .failed
  counted : ∀ c ∈ again, c.countSummary
  again : (again.map Commit.key).Subperm ((first.filter Commit.deferred).map Commit.key)

namespace Deferring

theorem distinct_again (hd : Deferring first again) : (again.map Commit.key).Nodup := by
  obtain ⟨l, hperm, hsub⟩ := hd.again
  rw [← hperm.nodup_iff]
  exact (hd.distinct.sublist (List.filter_sublist.map _)).sublist hsub

theorem mem_deferred (hd : Deferring first again) (hc : c ∈ first)
    (h : c.key ∈ again.map Commit.key) : c.deferred := by
  obtain ⟨d, hd', hk⟩ := List.mem_map.mp (hd.again.subset h)
  obtain ⟨hdf, hdd⟩ := List.mem_filter.mp hd'
  rwa [List.inj_on_of_nodup_map hd.distinct hc hdf hk.symm]

theorem length_left (hd : Deferring first again) :
    ((first.filter Commit.deferred).filter (·.key ∉ again.map Commit.key)).length =
      (first.filter Commit.deferred).length - again.length := by
  have hkeys : (((first.filter Commit.deferred).map Commit.key).filter
      (· ∈ again.map Commit.key)).Perm (again.map Commit.key) := by
    have hn : ((first.filter Commit.deferred).map Commit.key).Nodup :=
      hd.distinct.sublist (List.filter_sublist.map _)
    rw [List.perm_ext_iff_of_nodup (hn.filter _) hd.distinct_again]
    intro k
    rw [List.mem_filter, decide_eq_true_eq]
    exact and_iff_right_of_imp fun h => hd.again.subset h
  have hlen := hkeys.length_eq
  rw [List.filter_map, List.length_map, List.length_map] at hlen
  have hsplit := List.length_eq_length_filter_add (l := first.filter Commit.deferred)
    fun c => decide (c.key ∈ again.map Commit.key)
  have hnot : (first.filter Commit.deferred).filter
    (fun c => !decide (c.key ∈ again.map Commit.key))
      = (first.filter Commit.deferred).filter (·.key ∉ again.map Commit.key) :=
    List.filter_congr fun c _ => (decide_not (p := c.key ∈ again.map Commit.key)).symm
  rw [hnot] at hsplit
  simp only [Function.comp_def] at hlen
  omega

/-- Records settled and records counted differ by the deferred ones that were not
committed again. -/
theorem settledAs_append (hd : Deferring first again) :
    settledAs o (first ++ again) = (first ++ again).countP (Commit.counts o) +
      if o = .failed then (first.filter Commit.deferred).length - again.length else 0 := by
  have hsub : again.map Commit.key ⊆ first.map Commit.key := fun k hk =>
    (List.filter_sublist.map _).subset (hd.again.subset hk)
  have hagain : again.countP (·.result.status = o) = again.countP (Commit.counts o) :=
    List.countP_congr fun c hc => by simp [Commit.counts, hd.counted c hc]
  -- the records left alone are the counted ones and the deferred ones left over
  have hcounted :
    ((first.filter (·.key ∉ again.map Commit.key)).filter (!Commit.deferred ·)).countP
      (·.result.status = o) = first.countP (Commit.counts o) := by
    rw [List.countP_filter, List.countP_filter]
    refine List.countP_congr fun c hc => ?_
    have hnot : c.deferred = false → c.key ∉ again.map Commit.key := fun h hk => by
      simp [hd.mem_deferred hc hk] at h
    cases hdef : c.deferred with
    | false =>
      have := hnot hdef
      simp_all [Commit.counts, Commit.deferred]
    | true => simp_all [Commit.counts, Commit.deferred]
  have hleft : ((first.filter (·.key ∉ again.map Commit.key)).filter Commit.deferred).countP
      (·.result.status = o) =
      if o = .failed then (first.filter Commit.deferred).length - again.length else 0 := by
    have hcomm : (first.filter (·.key ∉ again.map Commit.key)).filter Commit.deferred =
        (first.filter Commit.deferred).filter (·.key ∉ again.map Commit.key) := by
      simp only [List.filter_filter, Bool.and_comm]
    have hfailed : ∀ c ∈ (first.filter Commit.deferred).filter
      (·.key ∉ again.map Commit.key),
        c.result.status = .failed := by
      intro c hc
      obtain ⟨hc, hdef⟩ := List.mem_filter.mp (List.mem_of_mem_filter hc)
      exact hd.failed c hc hdef
    rw [hcomm, ← hd.length_left]
    split
    · rename_i ho
      rw [List.countP_eq_length]
      intro c hc
      simp [ho, hfailed c hc]
    · rename_i ho
      rw [List.countP_eq_zero]
      intro c hc
      simp [hfailed c hc, Ne.symm ho]
  rw [settledAs, LastWrite.tally_append hd.distinct hd.distinct_again hsub, hagain,
    List.countP_append, List.countP_eq_countP_filter_add _ _ Commit.deferred, hcounted, hleft]
  omega

end Deferring
end UbkiUploader
