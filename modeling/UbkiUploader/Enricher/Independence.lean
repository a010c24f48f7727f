import UbkiUploader.Enricher.FileLaws

/-!
# What a line owes to the other lines of its file

With one cabinet behind the fetchers, the other lines decide how a file is decoded,
what else is fetched and which clients are looked up. Where none of this touches a
line, it comes out of any file the same.
-/

namespace UbkiUploader

variable {env : EnrichEnv} {cabinet : Text → Option Row} {apps : Peers}

-- ---------------------------------------------------------------------------
-- Encodings
-- ---------------------------------------------------------------------------

inductive Codec
  | utf8
  | cp1251
  deriving DecidableEq

def Codec.decode : Codec → ByteArray → Option Text
  | .utf8 => Text.decodeUtf8
  | .cp1251 => decodeCp1251

/-- The encoding that a file is taken to be in, as a whole. -/
def codecOf (raw : ByteArray) : Codec := if (Text.decodeUtf8 raw).isSome then .utf8 else .cp1251

structure HasLine (raw : ByteArray) (numbered : List (Nat × Text)) (n : Nat) (bytes : ByteArray)
    (line : Text) : Prop where
  read : readNumberedLines raw = some numbered
  decodes : (codecOf raw).decode bytes = some line
  mem : (n, line) ∈ numbered

-- ---------------------------------------------------------------------------
-- The cabinet
-- ---------------------------------------------------------------------------

/-- The fetchers answer from one cabinet, each key that is asked for. -/
structure Answers (env : EnrichEnv) (cabinet : Text → Option Row) (apps : Peers) : Prop where
  rows : ∀ dlrefs key, (env.fetch dlrefs).lookup key =
    if key ∈ dlrefs then cabinet key else none
  peers : ∀ ids, env.fetchIssuers ids = apps.only ids

theorem Answers.lookup (h : Answers env cabinet apps) (dlrefs : List Text) (key : Text) :
    (fetchRows env dlrefs).lookup key = if key ∈ dlrefs then cabinet key else none := by
  have hsorted : key ∈ sortedDlrefs dlrefs ↔ key ∈ dlrefs := by
    rw [sortedDlrefs, List.mem_insertionSort, List.mem_dedup]
  unfold fetchRows
  split
  · rename_i hnil
    rw [hnil]
    exact AList.lookup_empty key
  · rw [h.rows]
    simp only [hsorted]

theorem Answers.filePeers (h : Answers env cabinet apps)
    (hneed : clientsMissingIssuer env.ucd (fileRows env numbered) = .ok need) :
    filePeers env numbered = apps.only need := by
  simp only [UbkiUploader.filePeers, hneed, fetchPeers]
  split
  · rename_i hnil
    rw [hnil]
    rfl
  · exact h.peers need

-- ---------------------------------------------------------------------------
-- What a line looks up
-- ---------------------------------------------------------------------------

/-- The `dlref`s that a line looks up, without the blanks around them. -/
def lineLooksUp (env : EnrichEnv) (raw : Text) : List Text :=
  match lineObject env raw with
  | .ok obj =>
    match lineDeals obj with
    | .ok deals => (deals.map (dealDlref env.ucd)).filter (· ≠ [])
    | .error _ => []
  | .error _ => []

def AsksOwn (env : EnrichEnv) (raw : Text) : Prop :=
  ∀ key ∈ lineLooksUp env raw, key ∈ lineAsks env raw

theorem mem_lineLooksUp (hobj : lineObject env raw = .ok obj) (hdeals : lineDeals obj = .ok deals) :
    key ∈ lineLooksUp env raw ↔ key ≠ [] ∧ ∃ deal ∈ deals,
    dealDlref env.ucd deal = key := by
  simp only [lineLooksUp, hobj, hdeals, List.mem_filter, List.mem_map, ne_eq, decide_eq_true_eq]
  exact and_comm

/-- Before the document only the rows that a line looks up matter. -/
theorem beforeDoc_congr
    (h : ∀ deals, lineDeals line = .ok deals → ∀ deal ∈ deals, dealDlref u deal ≠ [] →
      rows.lookup (dealDlref u deal) = rows'.lookup (dealDlref u deal)) :
    beforeDoc u rows line = beforeDoc u rows' line := by
  unfold beforeDoc
  cases hinn : lineInn u line with
  | error halt => rfl
  | ok inn =>
    cases hdeals : lineDeals line with
    | error halt => rfl
    | ok deals =>
      have hrows : deals.mapM (dealRow u rows) = deals.mapM (dealRow u rows') := by
        refine Except.mapM_congr fun deal hdeal => ?_
        unfold dealRow
        split
        · rfl
        · rename_i hne
          rw [h deals hdeals deal hdeal hne]
      simp only [Except.ok_bind, hrows]

theorem Answers.beforeDoc_eq (h : Answers env cabinet apps) (hown : AsksOwn env raw)
    (hmem : (n, raw) ∈ numbered) (hobj : lineObject env raw = .ok obj) :
    beforeDoc env.ucd (fileRows env numbered) obj =
      beforeDoc env.ucd (fetchRows env (lineAsks env raw)) obj := by
  refine beforeDoc_congr fun deals hdeals deal hdeal hne => ?_
  have hasked := hown _ ((mem_lineLooksUp hobj hdeals).mpr ⟨hne, deal, hdeal, rfl⟩)
  have hin : dealDlref env.ucd deal ∈ numbered.flatMap fun line => lineAsks env line.2 :=
    List.mem_flatMap.mpr ⟨_, hmem, hasked⟩
  rw [fileRows, h.lookup, h.lookup, if_pos hin, if_pos hasked]

-- ---------------------------------------------------------------------------
-- Which clients are looked up
-- ---------------------------------------------------------------------------

/-- The newest application of a line sees to it that its client is looked up, or the client
is looked up with both files or with none, or its peers would not show. -/
def PeersSettled (env : EnrichEnv) (apps : Peers) (raw : Text)
    (need₁ need₂ : List Cell) : Prop :=
  ∀ obj inn deals newest vdate, lineObject env raw = .ok obj →
    beforeDoc env.ucd (fetchRows env (lineAsks env raw)) obj = .ok (inn, deals, newest, vdate) →
    missesIssuer env.ucd newest ∨ (newest.userId ∈ need₁ ↔ newest.userId ∈ need₂) ∨
      PeersIdle env.ucd obj inn newest (apps newest.userId)

theorem mem_need_of_misses (hneed : clientsMissingIssuer u rows = .ok need)
    (hbefore : beforeDoc u rows line = .ok (inn, deals, newest, vdate))
    (hmiss : missesIssuer u newest) : newest.userId ∈ need := by
  obtain ⟨e, he, rfl⟩ := beforeDoc_newest hbefore
  exact (mem_clientsMissingIssuer hneed).mpr ⟨e, he, hmiss, rfl⟩

theorem fileOutcome_agree (h : Answers env cabinet apps)
    (hneed₁ : clientsMissingIssuer env.ucd (fileRows env numbered₁) = .ok need₁)
    (hneed₂ : clientsMissingIssuer env.ucd (fileRows env numbered₂) = .ok need₂)
    (hmem₁ : (n₁, raw) ∈ numbered₁) (hmem₂ : (n₂, raw) ∈ numbered₂)
    (hown : AsksOwn env raw)
    (hpeers : PeersSettled env apps raw need₁ need₂) :
    fileOutcome env numbered₁ raw = fileOutcome env numbered₂ raw := by
  rw [fileOutcome, fileOutcome, lineOutcome, lineOutcome, h.filePeers hneed₁,
    h.filePeers hneed₂]
  cases hobj : lineObject env raw with
  | error halt => rfl
  | ok obj =>
    have hrows₁ := h.beforeDoc_eq hown hmem₁ hobj
    have hrows₂ := h.beforeDoc_eq hown hmem₂ hobj
    simp only [Except.ok_bind, enrichLine_eq]
    rw [hrows₁, hrows₂]
    cases hbefore : beforeDoc env.ucd (fetchRows env (lineAsks env raw)) obj with
    | error halt => rfl
    | ok made =>
      obtain ⟨inn, deals, newest, vdate⟩ := made
      rw [hbefore] at hrows₁ hrows₂
      simp only [Except.ok_bind]
      by_cases hboth : newest.userId ∈ need₁ ↔ newest.userId ∈ need₂
      · have hsame : apps.only need₁ newest.userId = apps.only need₂ newest.userId := by
          simp only [Peers.only, hboth]
        rw [hsame]
      · have hmiss : missesIssuer env.ucd newest = false := by
          rw [← Bool.not_eq_true]
          exact fun hmiss => hboth (iff_of_true (mem_need_of_misses hneed₁ hrows₁ hmiss)
            (mem_need_of_misses hneed₂ hrows₂ hmiss))
        have hidle : PeersIdle env.ucd obj inn newest (apps newest.userId) := by
          rcases hpeers obj inn deals newest vdate hobj hbefore with hyes | hiff | hidle
          · rw [hmiss] at hyes
            cases hyes
          · exact absurd hiff hboth
          · exact hidle
        -- one file has the client looked up, the other has not
        by_cases h₁ : newest.userId ∈ need₁
        · have h₂ : newest.userId ∉ need₂ := fun h₂ => hboth (iff_of_true h₁ h₂)
          rw [Peers.only, Peers.only, if_pos h₁, if_neg h₂]
          exact ((peersIdle_iff hmiss).mpr hidle).symm
        · have h₂ : newest.userId ∈ need₂ := by
            by_contra h₂
            exact hboth (iff_of_false h₁ h₂)
          rw [Peers.only, Peers.only, if_neg h₁, if_pos h₂]
          exact (peersIdle_iff hmiss).mpr hidle

-- ---------------------------------------------------------------------------
-- Files
-- ---------------------------------------------------------------------------

structure Batch.Of (b : Batch) (numbered : List (Nat × Text))
    (outcome : Text → Except Halt (Subject × DocStats)) : Prop where
  enriched : b.enriched = numbered.filterMap fun line => enrichedText (outcome line.2)
  quarantined : b.quarantined = numbered.filterMap fun line =>
    quarantineRecord line (outcome line.2)

/-- Two files that are processed to their ends make the same of a line that has the same
characters in both, asks for what it looks up, and is not reached by the peers that only
one of them looks up. -/
theorem lines_independent (hcabinet : Answers env cabinet apps)
    (h₁ : HasLine raw₁ numbered₁ n₁ bytes line)
    (h₂ : HasLine raw₂ numbered₂ n₂ bytes line)
    (hrun₁ : (enrichAll env numbered₁ summary₁).2 = none)
    (hrun₂ : (enrichAll env numbered₂ summary₂).2 = none)
    (hown : AsksOwn env line)
    (hpeers : ∀ need₁ need₂,
      clientsMissingIssuer env.ucd (fileRows env numbered₁) = .ok need₁ →
      clientsMissingIssuer env.ucd (fileRows env numbered₂) = .ok need₂ →
      PeersSettled env apps line need₁ need₂) :
    (enrichAll env numbered₁ summary₁).1.Of numbered₁ (fileOutcome env numbered₁) ∧
      (enrichAll env numbered₂ summary₂).1.Of numbered₂ (fileOutcome env numbered₂) ∧
      fileOutcome env numbered₁ line = fileOutcome env numbered₂ line := by
  obtain ⟨-, ⟨need₁, hneed₁⟩, -⟩ := enrichAll_eq_none.mp hrun₁
  obtain ⟨-, ⟨need₂, hneed₂⟩, -⟩ := enrichAll_eq_none.mp hrun₂
  have hbatch₁ := enrichAll_batch hrun₁
  have hbatch₂ := enrichAll_batch hrun₂
  exact ⟨⟨hbatch₁.1, hbatch₁.2⟩, ⟨hbatch₂.1, hbatch₂.2⟩,
    fileOutcome_agree hcabinet hneed₁ hneed₂ h₁.mem h₂.mem hown
      (hpeers _ _ hneed₁ hneed₂)⟩

-- ---------------------------------------------------------------------------
-- Two clients' worth of files
-- ---------------------------------------------------------------------------

/-- Two applications of one client: that of the key "5" states an issuer in one of its
sources, that of the key "6" in none. -/
def twoApplications (key : Text) : Option Row :=
  if key = Text.lit "5" then some dividedRow
  else if key = Text.lit "6" then some forgetfulRow
  else none

def twoFetch (dlrefs : List Text) : Rows :=
  let rows : Rows :=
    if Text.lit "5" ∈ dlrefs then AList.singleton (Text.lit "5") dividedRow else ∅
  if Text.lit "6" ∈ dlrefs then rows.insert (Text.lit "6") forgetfulRow else rows

def twoEnv : EnrichEnv := .ascii twoFetch (Peers.only fun _ => [forgetfulPeer])

theorem twoEnv_answers : Answers twoEnv twoApplications fun _ => [forgetfulPeer] where
  rows dlrefs key := by
    show (twoFetch dlrefs).lookup key = _
    have hfive : (if Text.lit "5" ∈ dlrefs then AList.singleton (Text.lit "5") dividedRow
        else (∅ : Rows)).lookup key =
        if key = Text.lit "5" ∧ key ∈ dlrefs then some dividedRow else none := by
      by_cases hkey : key = Text.lit "5"
      · subst hkey
        split <;> simp [*, AList.singleton, AList.lookup]
      · split <;> simp [hkey, AList.singleton, AList.lookup, List.dlookup_cons_ne]
    simp only [twoFetch, twoApplications]
    by_cases hsix : key = Text.lit "6"
    · have hne : key ≠ Text.lit "5" := by
        rw [hsix]
        decide
      rw [if_neg hne, if_pos hsix, ← hsix]
      split
      · exact AList.lookup_insert _
      · rw [hfive, if_neg fun h => hne h.1]
    · rw [if_neg hsix]
      have hkeep : (if Text.lit "6" ∈ dlrefs then
          (if Text.lit "5" ∈ dlrefs then AList.singleton (Text.lit "5") dividedRow
            else (∅ : Rows)).insert (Text.lit "6") forgetfulRow
          else if Text.lit "5" ∈ dlrefs then AList.singleton (Text.lit "5") dividedRow
            else (∅ : Rows)).lookup key =
          (if Text.lit "5" ∈ dlrefs then AList.singleton (Text.lit "5") dividedRow
            else (∅ : Rows)).lookup key := by
        split
        · exact AList.lookup_insert_ne hsix
        · rfl
      rw [hkeep, hfive]
      by_cases hfive : key = Text.lit "5" <;> simp [hfive]
  peers ids := rfl

/-- A line with this `dlref`. -/
def dealLine (dlref : String) : String :=
  "\x7b\"inn\":\"1\",\"deals\":[\x7b\"dlref\":\"" ++ dlref ++ "\"\x7d]\x7d"

/-- A line of the client with the `dlref` "5". -/
def clientLine : String :=
  "\x7b\"inn\":\"3000000011\",\"lname\":\"A\",\"fname\":\"B\",\"bdate\":\"1982-02-19\"," ++
    "\"deals\":[\x7b\"dlref\":\"5\"\x7d]\x7d"

def batchOf (env : EnrichEnv) (raw : ByteArray) : Option (Batch × Option PyError) :=
  (readNumberedLines raw).map fun numbered => enrichAll env numbered {}

def reasonsOf (env : EnrichEnv) (raw : ByteArray) : Option (List Reason) :=
  (batchOf env raw).map fun made => made.1.quarantined.map (·.reason)

/-- What other lines do to a line: a byte that is no UTF-8 has it read in another encoding,
a line that asks for its `dlref` has it found, one of its client has the peers looked up, and
one that raises has nothing come out. -/
theorem lines_dependent :
    (reasonsOf twoEnv (dealLine "є").toByteArray = some [.unknownDlref [0x454]] ∧
      (reasonsOf twoEnv (⟨#[0xFF, 10]⟩ ++ (dealLine "є").toByteArray)).map (·.drop 1) =
        some [.unknownDlref [0x421, 0x201D]]) ∧
    (reasonsOf twoEnv (dealLine " 5 ").toByteArray = some [.unknownDlref (Text.lit "5")] ∧
      reasonsOf twoEnv (dealLine " 5 " ++ "\n" ++ dealLine "5").toByteArray =
        some [.innMismatch (Text.lit "1"), .innMismatch (Text.lit "1")]) ∧
    ((batchOf twoEnv clientLine.toByteArray).map (·.1.summary.linesDocIncomplete) = some 1 ∧
      (batchOf twoEnv (clientLine ++ "\n" ++ dealLine "6").toByteArray).map
        (·.1.summary.linesDocIncomplete) = some 0) ∧
    ((batchOf twoEnv (dealLine "5").toByteArray).map (·.2) = some none ∧
      (batchOf twoEnv (dealLine "5" ++ "\n\x7b\"deals\":1\x7d").toByteArray).map (·.2) =
        some (some .typeError)) := by
  refine ⟨⟨?_, ?_⟩, ⟨?_, ?_⟩, ⟨?_, ?_⟩, ?_, ?_⟩ <;> decide +kernel

theorem lines_independent_two :
    ((enrichAll twoEnv [(1, Text.lit (dealLine "6"))] {}).1.Of [(1, Text.lit (dealLine "6"))]
        (fileOutcome twoEnv [(1, Text.lit (dealLine "6"))])) ∧
      ((enrichAll twoEnv [(1, Text.lit (dealLine "5")), (2, Text.lit (dealLine "6"))] {}).1.Of
        [(1, Text.lit (dealLine "5")), (2, Text.lit (dealLine "6"))]
        (fileOutcome twoEnv [(1, Text.lit (dealLine "5")), (2, Text.lit (dealLine "6"))])) ∧
      fileOutcome twoEnv [(1, Text.lit (dealLine "6"))] (Text.lit (dealLine "6")) =
        fileOutcome twoEnv [(1, Text.lit (dealLine "5")), (2, Text.lit (dealLine "6"))]
          (Text.lit (dealLine "6")) := by
  have hline₁ : HasLine (dealLine "6").toByteArray [(1, Text.lit (dealLine "6"))] 1
      (dealLine "6").toByteArray (Text.lit (dealLine "6")) :=
    ⟨by decide +kernel, by decide +kernel, by decide +kernel⟩
  have hline₂ : HasLine (dealLine "5" ++ "\n" ++ dealLine "6").toByteArray
      [(1, Text.lit (dealLine "5")), (2, Text.lit (dealLine "6"))] 2
      (dealLine "6").toByteArray (Text.lit (dealLine "6")) :=
    ⟨by decide +kernel, by decide +kernel, by decide +kernel⟩
  have hneed₁ : clientsMissingIssuer twoEnv.ucd (fileRows twoEnv
      [(1, Text.lit (dealLine "6"))]) = .ok [.int 7] := by decide +kernel
  have hneed₂ : clientsMissingIssuer twoEnv.ucd (fileRows twoEnv
      [(1, Text.lit (dealLine "5")), (2, Text.lit (dealLine "6"))]) = .ok [.int 7] := by
    decide +kernel
  have hown : ∀ key ∈ lineLooksUp twoEnv (Text.lit (dealLine "6")),
      key ∈ lineAsks twoEnv (Text.lit (dealLine "6")) := by decide +kernel
  refine lines_independent twoEnv_answers hline₁ hline₂ (by decide +kernel)
    (by decide +kernel) hown ?_
  intro need₁ need₂ h₁ h₂
  cases hneed₁.symm.trans h₁
  cases hneed₂.symm.trans h₂
  rintro obj inn deals newest vdate - -
  exact .inr (.inl Iff.rfl)

end UbkiUploader
