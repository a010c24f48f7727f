import UbkiUploader.Client.Response
import UbkiUploader.Lib.Fallible

/-!
# What a response can be taken for

Which responses mark the session stale, when a response is classified at all, and
what an accepted package may have lost.
-/

namespace UbkiUploader

variable {I : Interpreter} {info : Fields} {resp : Response} {r : UploadResult}

-- ---------------------------------------------------------------------------
-- Counters
-- ---------------------------------------------------------------------------

/-- The counter is no infinite float, which `int` does not read. -/
def FiniteCounter (info : Fields) (key : String) : Prop :=
  ∀ r, Json.getOr info (Text.lit key) = some (.float r) → ¬Json.isInfinite r

theorem counter_isOk (h : FiniteCounter info key) : ∃ n, counter I info key = .ok n := by
  unfold counter
  split
  · exact ⟨0, rfl⟩
  · rename_i v hv
    split
    · exact ⟨_, rfl⟩
    · exact ⟨0, rfl⟩
    · exact ⟨0, rfl⟩
    · rename_i e htype hvalue he
      -- the only exception left is the one that nothing catches
      have hover : v.toInt I = .error .overflowError := by
        cases v with
        | float r =>
          simp only [Json.toInt] at he ⊢
          split at he
          · cases he
            exact absurd rfl hvalue
          · rename_i hnan
            rw [if_neg hnan]
            split at he
            · rename_i hinf
              rw [if_pos hinf]
            · cases he
        | str t =>
          simp only [Json.toInt] at he
          split at he
          · cases he
          · cases he
            exact absurd rfl hvalue
        | bool b => cases he
        | int n => cases he
        | null => cases he; exact absurd rfl htype
        | arr items => cases he; exact absurd rfl htype
        | obj fields => cases he; exact absurd rfl htype
      obtain ⟨r, rfl, hinf⟩ := Json.toInt_eq_overflowError.mp hover
      exact absurd hinf (h r hv)

theorem droppedComponents_isOk (h : FiniteCounter info "ig") :
    ∃ b, droppedComponents I info = .ok b := by
  unfold droppedComponents
  split
  · exact ⟨true, rfl⟩
  · obtain ⟨n, hn⟩ := counter_isOk (I := I) h
    exact ⟨_, by rw [hn]; rfl⟩

theorem warned_isOk (h : FiniteCounter info "nt") : ∃ b, warned I info st dropped = .ok b := by
  unfold warned
  split
  · exact ⟨true, rfl⟩
  · split
    · exact ⟨false, rfl⟩
    · split
      · exact ⟨true, rfl⟩
      · obtain ⟨n, hn⟩ := counter_isOk (I := I) h
        exact ⟨_, by rw [hn]; rfl⟩

-- ---------------------------------------------------------------------------
-- States
-- ---------------------------------------------------------------------------

def isAccepted (state : Text) : Prop := state = Text.lit "ok" ∨ state = Text.lit "nt"

/-- What `_map_state` makes of a state: the outcome, by the state and the counter. -/
theorem mapState_eq_ok (h : mapState I info state httpStatus text = .ok r) :
    r.sessionExpired = false ∧
    (r.status = .sent → ∃ st, state = some st ∧ isAccepted st ∧
      ∃ n ≤ 0, counter I info "er" = .ok n ∧
      droppedComponents I info = .ok r.componentsDropped ∧
        warned I info st r.componentsDropped = .ok r.hasWarnings) ∧
    (r.status = .rejected → ∃ st, state = some st ∧
      (st = Text.lit "er" ∨ isAccepted st ∧ ∃ n > 0, counter I info "er" = .ok n)) := by
  obtain ⟨dropped, hdropped, h⟩ := Except.bind_eq_ok.mp h
  cases state with
  | none =>
    cases h
    exact ⟨rfl, fun h => (by cases h), fun h => (by cases h)⟩
  | some st =>
    simp only at h
    split at h
    · rename_i hacc
      obtain ⟨n, hn, h⟩ := Except.bind_eq_ok.mp h
      split at h
      · rename_i hpos
        cases h
        exact ⟨rfl, fun h => (by cases h), fun _ => ⟨st, rfl, .inr ⟨hacc, n, hpos, hn⟩⟩⟩
      · rename_i hpos
        obtain ⟨hasWarnings, hw, h⟩ := Except.bind_eq_ok.mp h
        cases h
        exact ⟨rfl, fun _ => ⟨st, rfl, hacc, n, by omega, hn, hdropped, hw⟩,
          fun h => (by cases h)⟩
    · split at h
      · rename_i her
        cases h
        exact ⟨rfl, fun h => (by cases h), fun _ => ⟨st, rfl, .inl her⟩⟩
      · split at h
        · cases h
          exact ⟨rfl, fun h => (by cases h), fun h => (by cases h)⟩
        · cases h
          exact ⟨rfl, fun h => (by cases h), fun h => (by cases h)⟩

theorem mapState_isOk (hig : FiniteCounter info "ig")
    (haccepted : ∀ st, state = some st → isAccepted st →
      FiniteCounter info "er" ∧ FiniteCounter info "nt") :
    ∃ r, mapState I info state httpStatus text = .ok r := by
  obtain ⟨dropped, hdropped⟩ := droppedComponents_isOk (I := I) hig
  simp only [mapState, hdropped, Except.ok_bind]
  cases state with
  | none => exact ⟨_, rfl⟩
  | some st =>
    simp only
    split
    · rename_i hst
      obtain ⟨her, hnt⟩ := haccepted st rfl hst
      obtain ⟨n, hn⟩ := counter_isOk (I := I) her
      obtain ⟨b, hb⟩ : ∃ b, warned I info st dropped = .ok b := warned_isOk hnt
      simp only [hn, hb, Except.ok_bind]
      split
      · exact ⟨_, rfl⟩
      · exact ⟨_, rfl⟩
    · split
      · exact ⟨_, rfl⟩
      · split
        · exact ⟨_, rfl⟩
        · exact ⟨_, rfl⟩

theorem byStatus_failed (resp : Response) :
    (byStatus resp).status = .failed ∧ (byStatus resp).sessionExpired = false ∧
      ((byStatus resp).isNetworkError ↔ 500 ≤ resp.statusCode) := by
  unfold byStatus
  simp only
  split
  · exact ⟨rfl, rfl, by simpa⟩
  · rename_i hlow
    split
    · exact ⟨rfl, rfl, iff_of_false Bool.false_ne_true hlow⟩
    · exact ⟨rfl, rfl, iff_of_false Bool.false_ne_true hlow⟩

-- ---------------------------------------------------------------------------
-- The course of a response
-- ---------------------------------------------------------------------------

inductive Reading (I : Interpreter) (resp : Response) : Except PyError UploadResult → Prop
  | forbidden (error : Text) (hcode : resp.statusCode = 401 ∨ resp.statusCode = 403) :
      Reading I resp (.ok (staleSession resp error))
  | stale {data code : Json} (error : Text) (hother : resp.statusCode = 200)
      (hdata : resp.json = some data) (hcode : errcode data = some code)
      (hstale : code.toText I.ucd ∈ sessionExpiredErrcodes) :
      Reading I resp (.ok (staleSession resp error))
  | state {data : Json} (hcode : resp.statusCode ≠ 401 ∧ resp.statusCode ≠ 403)
      (hlow : resp.statusCode < 500) (hdata : resp.json = some data)
      (hfresh : reportedStale I resp data = none) :
      Reading I resp (mapState I (sentdatainfo data) (stateOf I (sentdatainfo data))
        resp.statusCode resp.text)
  | status (hcode : resp.statusCode ≠ 401 ∧ resp.statusCode ≠ 403)
      (hfresh : ∀ data, resp.json = some data → reportedStale I resp data = none) :
      Reading I resp (.ok (byStatus resp))

theorem interpretResponse_reading (I : Interpreter) (resp : Response) :
    Reading I resp (interpretResponse I resp) := by
  unfold interpretResponse
  split
  · rename_i hcode
    exact .forbidden _ hcode
  · rename_i hcode
    have hcode := not_or.mp hcode
    have hnull : reportedStale I resp .null = none := by
      unfold reportedStale
      split <;> rfl
    split
    · rename_i hjson
      exact .status hcode fun data hdata => by rw [hjson] at hdata; cases hdata
    · rename_i hjson
      refine .status hcode fun data hdata => ?_
      rw [hjson] at hdata
      cases hdata
      exact hnull
    · rename_i data hne hjson
      split
      · rename_i code hstale
        simp only [reportedStale] at hstale
        split at hstale
        · rename_i h200
          obtain ⟨hcode, hmem⟩ := Option.filter_eq_some_iff.mp hstale
          exact .stale _ h200 hjson hcode (by simpa using hmem)
        · cases hstale
      · rename_i hfresh
        simp only
        split
        · rename_i hlow
          exact .state hcode hlow.1 hjson hfresh
        · refine .status hcode fun data' hdata => ?_
          rw [hjson] at hdata
          cases hdata
          exact hfresh

-- ---------------------------------------------------------------------------
-- Stale sessions
-- ---------------------------------------------------------------------------

def reportedErrcode (I : Interpreter) (resp : Response) : Option Text :=
  (resp.json.bind errcode).map (Json.toText I.ucd)

def sessionErrcodes : List Text := [Text.lit "2014", Text.lit "2015", Text.lit "2016"]

def ReportsSession (I : Interpreter) (resp : Response) : Prop :=
  resp.statusCode = 401 ∨ resp.statusCode = 403 ∨
    ∃ code ∈ sessionErrcodes, reportedErrcode I resp = some code

/-- The session problems that `_interpret_response` sees. -/
def SeesSession (I : Interpreter) (resp : Response) : Prop :=
  resp.statusCode = 401 ∨ resp.statusCode = 403 ∨
    (resp.statusCode = 200 ∧ reportedErrcode I resp = some (Text.lit "2014"))

theorem SeesSession.reports (h : SeesSession I resp) : ReportsSession I resp := by
  rcases h with h | h | ⟨-, h⟩
  · exact .inl h
  · exact .inr (.inl h)
  · exact .inr (.inr ⟨_, List.mem_cons_self, h⟩)

theorem not_seesSession (hcode : resp.statusCode ≠ 401 ∧ resp.statusCode ≠ 403)
    (hfresh : ∀ data, resp.json = some data → reportedStale I resp data = none) :
    ¬SeesSession I resp := by
  rintro (h | h | ⟨h200, h⟩)
  · exact hcode.1 h
  · exact hcode.2 h
  · obtain ⟨code, hcode, htext⟩ := Option.map_eq_some_iff.mp h
    obtain ⟨data, hdata, hcode⟩ := Option.bind_eq_some_iff.mp hcode
    have := hfresh data hdata
    rw [reportedStale, if_pos h200, hcode, Option.filter_eq_none_iff] at this
    simp [htext, sessionExpiredErrcodes] at this

/-- A result marks the session stale exactly for the problems that are seen. -/
theorem sessionExpired_iff (h : interpretResponse I resp = .ok r) :
    r.sessionExpired ↔ SeesSession I resp := by
  have hread := interpretResponse_reading I resp
  rw [h] at hread
  generalize hx : (Except.ok r : Except PyError UploadResult) = x at hread
  cases hread with
  | forbidden error hcode =>
    cases hx
    exact iff_of_true rfl (hcode.imp_right .inl)
  | stale error h200 hdata hcode hstale =>
    cases hx
    refine iff_of_true rfl (.inr (.inr ⟨h200, ?_⟩))
    simpa [reportedErrcode, hdata, hcode, sessionExpiredErrcodes] using hstale
  | state hcode hlow hdata hfresh =>
    refine iff_of_false ?_ (not_seesSession hcode fun data h => ?_)
    · rw [(mapState_eq_ok hx.symm).1]
      exact Bool.false_ne_true
    · rw [hdata] at h
      cases h
      exact hfresh
  | status hcode hfresh =>
    cases hx
    refine iff_of_false ?_ (not_seesSession hcode hfresh)
    rw [(byStatus_failed resp).2.1]
    exact Bool.false_ne_true

theorem interpretResponse_sees (h : SeesSession I resp) :
    ∃ r, interpretResponse I resp = .ok r := by
  have hread := interpretResponse_reading I resp
  generalize interpretResponse I resp = x at hread ⊢
  cases hread with
  | forbidden => exact ⟨_, rfl⟩
  | stale => exact ⟨_, rfl⟩
  | state hcode hlow hdata hfresh =>
    refine absurd h (not_seesSession hcode fun data h => ?_)
    rw [hdata] at h
    cases h
    exact hfresh
  | status => exact ⟨_, rfl⟩

/-- A session problem ends as a stale session exactly when it is HTTP 401 or 403, or
code 2014 with HTTP 200; what is inside `items` never does. -/
theorem interpretResponse_session (I : Interpreter) (resp : Response) :
    ((ReportsSession I resp → ∃ r, interpretResponse I resp = .ok r ∧ r.status = .failed ∧
        r.isNetworkError ∧ r.sessionExpired) ∧
      ∀ r, interpretResponse I resp = .ok r → r.sessionExpired → ReportsSession I resp) ↔
    (ReportsSession I resp → SeesSession I resp) := by
  constructor
  · rintro ⟨h, -⟩ hreports
    obtain ⟨r, hr, -, -, hexpired⟩ := h hreports
    exact (sessionExpired_iff hr).mp hexpired
  · intro h
    refine ⟨fun hreports => ?_,
      fun r hr hexpired => ((sessionExpired_iff hr).mp hexpired).reports⟩
    obtain ⟨r, hr⟩ := interpretResponse_sees (h hreports)
    have hexpired := (sessionExpired_iff hr).mpr (h hreports)
    have hnetwork := r.paired hexpired
    exact ⟨r, hr, r.networkFailed hnetwork, hnetwork, hexpired⟩

def sampleResponse (statusCode : Nat) (info : Fields) : Response where
  statusCode
  text := []
  json := some (.obj [(Text.lit "sentdatainfo", .obj info)])

theorem interpretResponse_session_2014 :
    ∃ r, interpretResponse .ascii (sampleResponse 200 [(Text.lit "main_errcode", .int 2014)]) =
      .ok r ∧ r.status = .failed ∧ r.isNetworkError ∧ r.sessionExpired :=
  ((interpretResponse_session .ascii _).mpr fun _ => .inr (.inr ⟨rfl, rfl⟩)).1
    (.inr (.inr ⟨Text.lit "2014", by decide, rfl⟩))

/-- Code 2015, a session that is missing, is taken for a rejection. -/
theorem interpretResponse_session_2015 :
    ∃ resp, resp.statusCode < 500 ∧ ReportsSession .ascii resp ∧
      ∃ r, interpretResponse .ascii resp = .ok r ∧ r.status = .rejected ∧
      ¬r.sessionExpired :=
  ⟨sampleResponse 200 [(Text.lit "state", .str (Text.lit "er")),
      (Text.lit "main_errcode", .int 2015)], by decide,
    .inr (.inr ⟨Text.lit "2015", by decide, rfl⟩), _, rfl, rfl, by decide⟩

-- ---------------------------------------------------------------------------
-- Classification
-- ---------------------------------------------------------------------------

/-- A status that leaves the decision to the body. -/
def LeftToBody (resp : Response) : Prop :=
  resp.statusCode < 500 ∧ resp.statusCode ≠ 401 ∧ resp.statusCode ≠ 403

/-- The counters that are read are no infinite floats: `ig` where the body decides, `er` and
`nt` where its state says that the package was taken. -/
def FiniteCounters (I : Interpreter) (resp : Response) : Prop :=
  LeftToBody resp → ∀ data, resp.json = some data →
    FiniteCounter (sentdatainfo data) "ig" ∧
      ∀ st, stateOf I (sentdatainfo data) = some st → isAccepted st →
        FiniteCounter (sentdatainfo data) "er" ∧ FiniteCounter (sentdatainfo data) "nt"

/-- Every response is classified, and a package is taken for sent or rejected only on
a state that says so, with the counter of rejected components as `int` reads it. -/
theorem interpretResponse_classified (I : Interpreter) (resp : Response)
    (hfin : FiniteCounters I resp) :
    ∃ r, interpretResponse I resp = .ok r ∧
      (r.status = .sent → LeftToBody resp ∧ ∃ data st, resp.json = some data ∧
        stateOf I (sentdatainfo data) = some st ∧ isAccepted st ∧
        ∃ n ≤ 0, counter I (sentdatainfo data) "er" = .ok n) ∧
      (r.status = .rejected → LeftToBody resp ∧ ∃ data st, resp.json = some data ∧
        stateOf I (sentdatainfo data) = some st ∧
        (st = Text.lit "er" ∨ isAccepted st ∧
          ∃ n > 0, counter I (sentdatainfo data) "er" = .ok n)) ∧
      (500 ≤ resp.statusCode → r.status = .failed ∧ r.isNetworkError ∧
        ¬r.sessionExpired) ∧
      (r.sessionExpired → r.status = .failed ∧ r.isNetworkError) := by
  have hpair (r : UploadResult) (h : r.sessionExpired) : r.status = .failed ∧ r.isNetworkError :=
    ⟨r.networkFailed (r.paired h), r.paired h⟩
  have hread := interpretResponse_reading I resp
  generalize interpretResponse I resp = x at hread ⊢
  cases hread with
  | forbidden error hcode =>
    refine ⟨_, rfl, fun h => (by cases h), fun h => (by cases h), fun h => ?_, hpair _⟩
    rcases hcode with h' | h' <;> omega
  | stale error h200 =>
    refine ⟨_, rfl, fun h => (by cases h), fun h => (by cases h), fun h => ?_, hpair _⟩
    omega
  | state hcode hlow hdata hfresh =>
    obtain ⟨hig, haccepted⟩ := hfin ⟨hlow, hcode⟩ _ hdata
    obtain ⟨r, hr⟩ : ∃ r, mapState I _ (stateOf I _) resp.statusCode resp.text = .ok r :=
      mapState_isOk hig haccepted
    obtain ⟨-, hsent, hrejected⟩ := mapState_eq_ok hr
    refine ⟨r, hr, fun h => ⟨⟨hlow, hcode⟩, ?_⟩, fun h => ⟨⟨hlow, hcode⟩, ?_⟩,
      fun h => ?_, hpair _⟩
    · obtain ⟨st, hst, hacc, n, hn, hcount, -⟩ := hsent h
      exact ⟨_, st, hdata, hst, hacc, n, hn, hcount⟩
    · obtain ⟨st, hst, hwhy⟩ := hrejected h
      exact ⟨_, st, hdata, hst, hwhy⟩
    · omega
  | status hcode hfresh =>
    obtain ⟨hfailed, hfresh, hnetwork⟩ := byStatus_failed resp
    refine ⟨_, rfl, fun h => ?_, fun h => ?_,
      fun h => ⟨hfailed, hnetwork.mpr h, ?_⟩, hpair _⟩
    · rw [hfailed] at h
      cases h
    · rw [hfailed] at h
      cases h
    · rw [hfresh]
      exact Bool.false_ne_true

theorem interpretResponse_classified_er :
    ∃ r, interpretResponse .ascii
    (sampleResponse 400 [(Text.lit "state", .str (Text.lit "ER"))]) =
      .ok r ∧ r.status = .rejected := by
  obtain ⟨r, hr, -⟩ := interpretResponse_classified .ascii
    (sampleResponse 400 [(Text.lit "state", .str (Text.lit "ER"))])
    (by
      rintro - data hdata
      cases hdata
      refine ⟨?_, fun _ _ _ => ⟨?_, ?_⟩⟩ <;>
      · intro r hr
        cases hr)
  refine ⟨r, hr, ?_⟩
  cases hr
  rfl

/-- A counter that is no number is read as zero: the package is taken for sent. -/
theorem interpretResponse_classified_words :
    ∃ resp r, interpretResponse .ascii resp = .ok r ∧ r.status = .sent ∧
      ∃ info, resp.json.map sentdatainfo = some info ∧
        info.lookup (Text.lit "er") = some (.str (Text.lit "two")) :=
  ⟨sampleResponse 200 [(Text.lit "state", .str (Text.lit "ok")),
      (Text.lit "er", .str (Text.lit "two"))], _, rfl, rfl, _, rfl, rfl⟩

end UbkiUploader
