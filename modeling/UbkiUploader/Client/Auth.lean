import UbkiUploader.Client.Response

/-!
# Asking for a session (app/ubki_client.py, `_find_key` and `auth`)

The search looks for a key at any depth, a dict's own entry before what is inside it.
It takes a null entry for an answer: what else the dict holds stays unseen. So it is
complete on the values whose first entry that is not null is not behind such a null.
-/

namespace UbkiUploader

-- ---------------------------------------------------------------------------
-- The search
-- ---------------------------------------------------------------------------

mutual
/-- `_find_key`, where the null stands for None as well. -/
def findKey (key : Text) : Json → Json
  | .obj data =>
    match data.lookup key with
    | some v => v
    | none => findKeyFields key data
  | .arr data => findKeyItems key data
  | _ => .null

def findKeyItems (key : Text) : List Json → Json
  | [] => .null
  | item :: items =>
    match findKey key item with
    | .null => findKeyItems key items
    | found => found

def findKeyFields (key : Text) : Fields → Json
  | [] => .null
  | (_, value) :: fields =>
    match findKey key value with
    | .null => findKeyFields key fields
    | found => found
end

def sessidField : Text := Text.lit "sessid"

/-- What the bureau's server answered: a response, or the text of the `HTTPError`. -/
abbrev AuthReply := Except Text Response

/-- What `auth` makes of the reply: a sessid, or the text of its `UbkiAuthError`. -/
def authAnswer (u : Ucd) : AuthReply → Except Text Text
  | .error exc => .error (Text.lit "auth network error: " ++ exc)
  | .ok resp =>
    if resp.statusCode ≠ 200 then
      .error (Text.lit "auth HTTP " ++ Text.ofNat resp.statusCode ++ Text.lit ": " ++
        resp.text.take 500)
    else match resp.json with
      | none => .error (Text.lit "auth returned non-JSON: " ++ resp.text.take 500)
      | some data =>
        let sessid := findKey sessidField data
        if sessid.truthy then .ok (sessid.toText u)
        else
          let errtext := findKey (Text.lit "errtext") data
          .error (Text.lit "auth rejected: " ++
            if errtext.truthy then errtext.toText u else resp.text.take 500)

-- ---------------------------------------------------------------------------
-- What there is to find
-- ---------------------------------------------------------------------------

structure KeyEntry where
  value : Json
  /-- Some dict around the entry has a null under the same key. -/
  hidden : Bool

mutual
/-- The entries under a key in depth-first order, a dict's own before those inside it. -/
def keyEntries (key : Text) (hidden : Bool) : Json → List KeyEntry
  | .obj data =>
    match data.lookup key with
    | some own => ⟨own, hidden⟩ :: keyEntriesFields key (hidden || own.isNull) data
    | none => keyEntriesFields key hidden data
  | .arr data => keyEntriesItems key hidden data
  | _ => []

def keyEntriesItems (key : Text) (hidden : Bool) : List Json → List KeyEntry
  | [] => []
  | item :: items => keyEntries key hidden item ++ keyEntriesItems key hidden items

def keyEntriesFields (key : Text) (hidden : Bool) : Fields → List KeyEntry
  | [] => []
  | (_, value) :: fields => keyEntries key hidden value ++ keyEntriesFields key hidden fields
end

def firstEntry (entries : List KeyEntry) : Option KeyEntry := entries.find? (!·.value.isNull)

/-- The first of those that no null hides. -/
def firstShown (entries : List KeyEntry) : Option KeyEntry :=
  firstEntry (entries.filter (!·.hidden))

theorem value_of_firstEntry (h : firstEntry entries = some e) : e.value ≠ .null := by
  intro hnull
  have hfound := List.find?_some h
  simp [Json.isNull_iff.mpr hnull] at hfound

theorem firstEntry_eq_none : firstEntry entries = none ↔ ∀ e ∈ entries, e.value = .null := by
  simp [firstEntry]

theorem firstEntry_append :
    firstEntry (entries ++ entries') = (firstEntry entries).or (firstEntry entries') :=
  List.find?_append

theorem firstShown_append :
    firstShown (entries ++ entries') = (firstShown entries).or (firstShown entries') := by
  rw [firstShown, List.filter_append, firstEntry_append]
  rfl

theorem firstShown_of_firstEntry (h : firstEntry entries = some e) (hshown : e.hidden = false) :
    firstShown entries = some e := by
  obtain ⟨he, before, after, rfl, hbefore⟩ := List.find?_eq_some_iff_append.mp h
  have hskipped : firstShown before = none := by
    rw [firstShown, firstEntry, List.find?_eq_none]
    intro a ha
    simpa using hbefore a (List.mem_of_mem_filter ha)
  have hfound : firstShown (e :: after) = some e := by
    rw [firstShown, List.filter_cons_of_pos (by simp [hshown]), firstEntry]
    exact List.find?_cons_of_pos he
  rw [firstShown_append, hskipped, hfound]
  rfl

theorem firstShown_of_hidden (h : ∀ e ∈ entries, e.hidden = true) :
    firstShown entries = none := by
  have hempty : entries.filter (!·.hidden) = [] := by simpa [List.filter_eq_nil_iff] using h
  rw [firstShown, hempty]
  rfl

-- ---------------------------------------------------------------------------
-- What the search finds
-- ---------------------------------------------------------------------------

theorem keyEntriesItems_eq {hidden : Bool} :
    keyEntriesItems key hidden items = items.flatMap (keyEntries key hidden) := by
  induction items with
  | nil => rfl
  | cons item items ih => rw [keyEntriesItems, ih, List.flatMap_cons]

theorem keyEntriesFields_eq {hidden : Bool} :
    keyEntriesFields key hidden fields = fields.flatMap fun f => keyEntries key hidden f.2 := by
  induction fields with
  | nil => rfl
  | cons f fields ih =>
    obtain ⟨k, v⟩ := f
    rw [keyEntriesFields, ih, List.flatMap_cons]

theorem hidden_of_mem (h : e ∈ keyEntries key true v) : e.hidden = true := by
  induction v with
  | arr items ih =>
    rw [keyEntries, keyEntriesItems_eq, List.mem_flatMap] at h
    obtain ⟨item, hitem, he⟩ := h
    exact ih item hitem he
  | obj fields ih =>
    have hinside : e ∈ keyEntriesFields key true fields → e.hidden = true := by
      intro he
      rw [keyEntriesFields_eq, List.mem_flatMap] at he
      obtain ⟨f, hf, he⟩ := he
      exact ih f hf he
    rw [keyEntries] at h
    split at h
    · obtain rfl | he := List.mem_cons.mp h
      · rfl
      · exact hinside he
    · exact hinside h
  | _ => simp [keyEntries] at h

def foundValue (e : Option KeyEntry) : Json := (e.map KeyEntry.value).getD .null

theorem foundValue_or {entries entries' : List KeyEntry} :
    (match foundValue (firstShown entries) with
      | .null => foundValue (firstShown entries')
      | found => found) = foundValue (firstShown (entries ++ entries')) := by
  rw [firstShown_append]
  cases h : firstShown entries with
  | none => rfl
  | some e =>
    have hvalue := value_of_firstEntry h
    rw [Option.some_or]
    obtain ⟨v, hidden⟩ := e
    cases v <;> first | rfl | exact absurd rfl hvalue

theorem findKey_eq : findKey key v = foundValue (firstShown (keyEntries key false v)) := by
  induction v with
  | arr items ih =>
    rw [findKey, keyEntries]
    induction items with
    | nil => rfl
    | cons item items ihItems =>
      rw [findKeyItems, keyEntriesItems, ih item (by simp),
        ihItems fun v hv => ih v (by simp [hv])]
      exact foundValue_or
  | obj fields ih =>
    have hinside : findKeyFields key fields =
        foundValue (firstShown (keyEntriesFields key false fields)) := by
      induction fields with
      | nil => rfl
      | cons f fields ihFields =>
        obtain ⟨k, v⟩ := f
        rw [findKeyFields, keyEntriesFields, ih (k, v) (by simp),
          ihFields fun f hf => ih f (by simp [hf])]
        exact foundValue_or
    rw [findKey, keyEntries]
    split
    · rename_i own hown
      cases hnull : own.isNull with
      | true =>
        -- The dict's own null ends the search of this dict, and hides what is inside it.
        have hbehind : firstShown (keyEntriesFields key true fields) = none := by
          apply firstShown_of_hidden
          intro e he
          rw [keyEntriesFields_eq, List.mem_flatMap] at he
          obtain ⟨f, -, he⟩ := he
          exact hidden_of_mem he
        rw [Bool.or_true, ← List.singleton_append, firstShown_append, hbehind,
          Json.isNull_iff.mp hnull]
        rfl
      | false =>
        have hfirst : firstShown (⟨own, false⟩ :: keyEntriesFields key false fields) =
            some ⟨own, false⟩ :=
          firstShown_of_firstEntry (List.find?_cons_of_pos (by simp [hnull])) rfl
        rw [Bool.or_false, hfirst]
        rfl
    · exact hinside
  | _ => rfl

-- ---------------------------------------------------------------------------
-- When the search is complete
-- ---------------------------------------------------------------------------

/-- The search returns the first entry that is not null, and nothing only where there is
none. -/
structure FindsFirst (key : Text) (v : Json) : Prop where
  first : ∀ e, firstEntry (keyEntries key false v) = some e → findKey key v = e.value
  none : findKey key v = .null → ∀ e ∈ keyEntries key false v, e.value = .null

/-- The entry is not hidden, or the first of those that are not is as good. -/
def InSight (P : Json → Prop) (entries : List KeyEntry) (e : KeyEntry) : Prop :=
  e.hidden = false ∨ ∃ e', firstShown entries = some e' ∧ P e'.value

/-- An entry that is not null and is the first one, is in sight where the first shown
serves as well. -/
theorem inSight_iff {P : Json → Prop} (hfirst : firstEntry entries = some e) (hgood : P e.value) :
    InSight P entries e ↔ ∃ e', firstShown entries = some e' ∧ P e'.value := by
  refine ⟨?_, .inr⟩
  rintro (hshown | hother)
  · exact ⟨e, firstShown_of_firstEntry hfirst hshown, hgood⟩
  · exact hother

theorem findKey_of_shown (h : firstShown (keyEntries key false v) = some e) :
    findKey key v = e.value := by
  rw [findKey_eq, h]
  rfl

theorem findKey_eq_iff (hw : w ≠ .null) :
    findKey key v = w ↔ ∃ e, firstShown (keyEntries key false v) = some e ∧ e.value = w := by
  rw [findKey_eq]
  cases firstShown (keyEntries key false v) with
  | none => simpa [foundValue] using hw.symm
  | some e => simp [foundValue]

theorem findsFirst_iff :
    FindsFirst key v ↔ ∀ e, firstEntry (keyEntries key false v) = some e →
    InSight (· = e.value) (keyEntries key false v) e := by
  constructor
  · rintro ⟨hfirst, -⟩ e he
    rw [inSight_iff (P := (· = e.value)) he rfl, ← findKey_eq_iff (value_of_firstEntry he)]
    exact hfirst e he
  · intro h
    have hfirst : ∀ e, firstEntry (keyEntries key false v) = some e →
      findKey key v = e.value := by
      intro e he
      rw [findKey_eq_iff (value_of_firstEntry he), ← inSight_iff (P := (· = e.value)) he rfl]
      exact h e he
    refine ⟨hfirst, ?_⟩
    intro hnull
    cases he : firstEntry (keyEntries key false v) with
    | none => exact firstEntry_eq_none.mp he
    | some e => exact absurd ((hfirst e he).symm.trans hnull) (value_of_firstEntry he)

-- ---------------------------------------------------------------------------
-- When the session is found
-- ---------------------------------------------------------------------------

theorem authAnswer_eq_ok (hstatus : resp.statusCode = 200) (hjson : resp.json = some v) :
    authAnswer u (.ok resp) = .ok sessid ↔
      (findKey sessidField v).truthy = true ∧ (findKey sessidField v).toText u = sessid := by
  rw [authAnswer, if_neg (by simp [hstatus]), hjson]
  change (if (findKey sessidField v).truthy then _ else _) = _ ↔ _
  split
  · rename_i htruthy
    simp only [htruthy, true_and, Except.ok.injEq]
  · rename_i htruthy
    simp [htruthy]

theorem Session.auth_fst : (Session.auth today answer s).1 = answer := by
  cases answer <;> rfl

/-- An accepted response whose first sessid that is not null is not empty gives that
sessid. -/
def AuthFinds (u : Ucd) (resp : Response) : Prop :=
  ∀ v e, resp.statusCode = 200 → resp.json = some v →
    firstEntry (keyEntries sessidField false v) = some e → e.value.truthy = true →
    ∀ today (s : Session), (s.auth today (authAnswer u (.ok resp))).1 = .ok (e.value.toText u)

theorem authFinds_iff : AuthFinds u resp ↔
    ∀ v e, resp.statusCode = 200 → resp.json = some v →
      firstEntry (keyEntries sessidField false v) = some e → e.value.truthy = true →
      InSight (fun w => w.truthy = true ∧ w.toText u = e.value.toText u)
        (keyEntries sessidField false v) e := by
  constructor
  · intro h v e hstatus hjson he htruthy
    have hanswer := h v e hstatus hjson he htruthy [] ⟨{}, none⟩
    rw [Session.auth_fst, authAnswer_eq_ok hstatus hjson] at hanswer
    obtain ⟨hfound, htext⟩ := hanswer
    obtain ⟨e', hshown, hvalue⟩ :=
      (findKey_eq_iff (by rintro hnull; rw [hnull] at hfound; cases hfound)).mp rfl
    rw [inSight_iff he ⟨htruthy, rfl⟩]
    exact ⟨e', hshown, hvalue ▸ ⟨hfound, htext⟩⟩
  · intro h v e hstatus hjson he htruthy today s
    have hsight := h v e hstatus hjson he htruthy
    rw [inSight_iff he ⟨htruthy, rfl⟩] at hsight
    obtain ⟨e', hshown, hfound, htext⟩ := hsight
    rw [Session.auth_fst, authAnswer_eq_ok hstatus hjson, findKey_of_shown hshown]
    exact ⟨hfound, htext⟩

/-- The search, and the session with it, is complete exactly where no null hides the first
entry, or what is found instead says the same. -/
theorem findKey_complete (key : Text) (v : Json) (u : Ucd) (resp : Response) :
    (FindsFirst key v ↔ ∀ e, firstEntry (keyEntries key false v) = some e →
      InSight (· = e.value) (keyEntries key false v) e) ∧
    (AuthFinds u resp ↔ ∀ v e, resp.statusCode = 200 → resp.json = some v →
      firstEntry (keyEntries sessidField false v) = some e → e.value.truthy = true →
      InSight (fun w => w.truthy = true ∧ w.toText u = e.value.toText u)
        (keyEntries sessidField false v) e) :=
  ⟨findsFirst_iff, authFinds_iff⟩

def nullSessid : Json :=
  .obj [(sessidField, .null), (Text.lit "doc", .obj [(Text.lit "auth",
    .obj [(sessidField, .str (Text.lit "abc"))])])]

/-- What is in it is not found, and `auth` raises. -/
theorem findKey_incomplete :
    ¬ FindsFirst sessidField nullSessid ∧
    ¬ AuthFinds .ascii ⟨200, nullSessid.dumps .standard, some nullSessid⟩ := by
  constructor
  · rintro ⟨-, hnone⟩
    have hnull := hnone rfl ⟨.str (Text.lit "abc"), true⟩ (.tail _ (.head _))
    cases hnull
  · intro h
    have hanswer := h nullSessid ⟨.str (Text.lit "abc"), true⟩ rfl rfl rfl rfl [] ⟨{}, none⟩
    rw [Session.auth_fst, authAnswer_eq_ok rfl rfl] at hanswer
    cases hanswer.1

end UbkiUploader
