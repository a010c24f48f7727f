import UbkiUploader.Enricher.FileLaws
import UbkiUploader.Enricher.Issuers

/-!
# What can be written

The enriched lines and the quarantine records are encoded at the very end, for the whole
file at once. The driver of the cabinet decodes what it returns, so only the texts of a
line can hold what UTF-8 has no bytes for.
-/

namespace UbkiUploader

open Text (Encodes)

variable {u : Ucd} {config : Config} {rows : Rows} {peers : Peers} {line : Fields}

-- ---------------------------------------------------------------------------
-- Cells
-- ---------------------------------------------------------------------------

def Cell.Decoded (c : Cell) : Prop := ∀ t, c = .str t → t.Encodes

def PassportCells.Decoded (p : PassportCells) : Prop :=
  p.number.Decoded ∧ p.date.Decoded ∧ p.issuedBy.Decoded

structure Row.Decoded (row : Row) : Prop where
  userId : row.userId.Decoded
  snap : row.snap.Decoded
  user : row.user.Decoded
  snapPhone : row.snapPhone.Decoded
  userPhone : row.userPhone.Decoded
  userInn : row.userInn.Decoded
  addr : ∀ c ∈ [row.addrPostcode, row.addrCity, row.addrStreet, row.addrHouse, row.addrBuilding,
    row.addrFlat], c.Decoded

theorem encodes_ofNat (n : Nat) : (Text.ofNat n).Encodes :=
  Text.encodes_of_ascii fun c hc => (Json.ofNat_ascii n c hc).2

theorem encodes_ofInt (n : Int) : (Text.ofInt n).Encodes :=
  Text.encodes_of_ascii fun c hc => (Json.ofInt_ascii n c hc).2

theorem encodes_strip {t : Text} (h : t.Encodes) : (Text.strip t).Encodes := fun c hc =>
  h c ((List.dropWhile_sublist _).subset ((List.rdropWhile_prefix _ _).subset hc))

theorem encodes_filter {t : Text} (p : Nat → Bool) (h : t.Encodes) : Encodes (t.filter p) :=
  fun c hc => h c (List.mem_filter.mp hc).1

theorem Cell.Decoded.toText {c : Cell} (h : c.Decoded) : c.toText.Encodes := by
  cases c with
  | null => exact Text.encodes_lit _
  | str t => exact h t rfl
  | int n => exact encodes_ofInt n
  | date d => exact Calendar.encodes_isoformat d
  | datetime d t =>
    have hspace : Encodes [32] := Text.encodes_lit " "
    exact Text.encodes_append.mpr ⟨Calendar.encodes_isoformat d,
      Text.encodes_append.mpr ⟨hspace, Calendar.encodes_time t⟩⟩

theorem Cell.Decoded.textOr {c : Cell} (h : c.Decoded) : c.textOr.Encodes := by
  rw [Cell.textOr]
  split
  · exact h.toText
  · exact Text.encodes_lit ""

theorem Cell.Decoded.stripped {c : Cell} (h : c.Decoded) : c.stripped.Encodes :=
  encodes_strip h.textOr

theorem encodes_isoDate {c : Cell} (h : isoDate u c = some t) : t.Encodes := by
  obtain ⟨d, -, rfl⟩ := fromisoformat_isoDate h
  exact Calendar.encodes_isoformat d

theorem Cell.Decoded.number {c : Cell} (hu : u.Scalar) (h : c.Decoded) :
    (normalizeNumber u c).Encodes :=
  hu.upperText (encodes_filter _ h.textOr)

theorem Cell.Decoded.phone {c : Cell} {phone : Text} (h : c.Decoded)
    (hphone : normalizePhone u c = some phone) : phone.Encodes := by
  have hdigits := encodes_filter u.isDecimal h.textOr
  simp only [normalizePhone] at hphone
  split at hphone
  · cases hphone
    exact Text.encodes_append.mpr ⟨Text.encodes_lit "+", hdigits⟩
  · split at hphone
    · cases hphone
      exact Text.encodes_append.mpr ⟨Text.encodes_lit _, hdigits⟩
    · cases hphone

-- ---------------------------------------------------------------------------
-- repr
-- ---------------------------------------------------------------------------

theorem encodes_repr (hu : u.Scalar) (c : Cell) : (c.repr u).Encodes := by
  have hcall (name : String) (args : List Nat) : (Cell.callText name args).Encodes := by
    simp only [Cell.callText, Text.encodes_append, Text.encodes_lit, true_and, and_true]
    rw [Text.encodes_join (Text.encodes_lit _)]
    exact List.forall_mem_map.mpr fun n _ => encodes_ofNat n
  cases c with
  | null => exact Text.encodes_lit _
  | str t => exact hu.repr t
  | int n => exact encodes_ofInt n
  | date d => exact hcall _ _
  | datetime d t => exact hcall _ _

-- ---------------------------------------------------------------------------
-- Documents
-- ---------------------------------------------------------------------------

structure Doc.Written (d : Doc) : Prop where
  vdate : d.vdate.Encodes
  dtype : d.dtype.Encodes
  dser : d.dser.Encodes
  dnom : d.dnom.Encodes
  dwho : ∀ t, d.dwho = some t → t.Encodes
  dwdt : ∀ t, d.dwdt = some t → t.Encodes
  dterm : ∀ t, d.dterm = some t → t.Encodes

theorem parseDocNumber_dtype (h : parseDocNumber u value = some n) :
    n.dtype = docTypeIdCard ∨ n.dtype = docTypePassport := by
  simp only [parseDocNumber] at h
  split at h
  · cases h
  · split at h
    · cases h
      exact .inl rfl
    · split at h
      · cases h
        exact .inr rfl
      · cases h

theorem encodes_dterm (h : docFields vdate n issuedBy issuedAt = .ok doc)
    (hterm : doc.dterm = some t) : t.Encodes := by
  simp only [docFields] at h
  split at h
  · cases h
    cases hterm
  · split at h
    · obtain ⟨dterm, hyears, h⟩ := Except.bind_eq_ok.mp h
      cases h
      cases hterm
      unfold plusYears at hyears
      split at hyears
      · cases hyears
        exact Calendar.encodes_isoformat _
      · cases hyears
    · cases h
      cases hterm

theorem docFields_written (hn : parseDocNumber u value = some n)
    (hnumber : (normalizeNumber u value).Encodes) (hvdate : vdate.Encodes) (hby : issuedBy.Encodes)
    (hat : ∀ t, issuedAt = some t → t.Encodes)
    (h : docFields vdate n issuedBy issuedAt = .ok doc) : doc.Written := by
  have hterm (t : Text) (ht : doc.dterm = some t) : t.Encodes := encodes_dterm h ht
  obtain ⟨hdoc, rfl, hwho, rfl⟩ := docFields_eq_ok h
  rw [← parseDocNumber_number hn, Text.encodes_append, ← hdoc] at hnumber
  refine ⟨hvdate, ?_, hnumber.1, hnumber.2, fun t ht => ?_, hat, hterm⟩
  · rw [hdoc]
    rcases parseDocNumber_dtype hn with heq | heq
    · rw [heq]
      exact Text.encodes_lit _
    · rw [heq]
      exact Text.encodes_lit _
  · rw [hwho] at ht
    split at ht
    · cases ht
    · exact Option.some.inj ht ▸ hby

theorem buildDoc_written {apps : List Peer} (hu : u.Scalar) (hrow : row.Decoded)
    (happs : ∀ peer ∈ apps, peer.passport.Decoded) (hvdate : vdate.Encodes)
    (h : buildDoc u row vdate apps = .ok (doc, stats)) : doc.Written := by
  have hsource : ∀ source ∈ row.sources, source.Decoded := by
    simpa [Row.sources] using ⟨hrow.snap, hrow.user⟩
  refine buildDocFrom_forall (P := Doc.Written) (fun source hs n doc hn hfields => ?_)
    (fun _ h => by cases h) h
  obtain ⟨hnumber, -, hissued⟩ := hsource source hs
  rw [← issuerOf, issuerOf_eq] at hfields
  rw [parseDocNumber_normalized] at hn
  have hnumber := hnumber.number hu
  split at hfields
  · split at hfields
    · rename_i peer hpeer
      have hmem : peer ∈ apps := (List.mem_filter.mp (List.argmax_mem hpeer)).1
      refine docFields_written hn hnumber hvdate (happs peer hmem).2.2.stripped
        (fun t ht => ?_) hfields
      rcases Option.or_eq_some_iff.mp ht with ht | ⟨-, ht⟩
      · exact encodes_isoDate ht
      · exact encodes_isoDate ht
    · exact docFields_written hn hnumber hvdate (Text.encodes_lit "")
        (fun t ht => encodes_isoDate ht)
        hfields
  · exact docFields_written hn hnumber hvdate hissued.stripped
      (fun t ht => encodes_isoDate ht) hfields

-- ---------------------------------------------------------------------------
-- Subjects
-- ---------------------------------------------------------------------------

theorem encodes_phone (hrow : newest.Decoded) (h : rowPhone u newest = .ok phone) :
    phone.Encodes := by
  rcases Option.or_eq_some_iff.mp (rowPhone_eq_ok h) with h | ⟨-, h⟩
  · exact hrow.snapPhone.phone h
  · exact hrow.userPhone.phone h

theorem encodes_rowVdate (h : rowVdate u newest = .ok vdate) : vdate.Encodes := by
  unfold rowVdate at h
  split at h
  · cases h
  · rename_i hdate
    cases h
    exact encodes_isoDate hdate

structure LineWritten (u : Ucd) (config : Config) (line : Fields) (deals : List Json) : Prop where
  reqlng : (Json.textOr u line (Text.lit "reqlng") (Text.lit "1")).Encodes
  lname : (lineText u line "lname").Encodes
  fname : (lineText u line "fname").Encodes
  mname : (lineText u line "mname").Encodes
  bdate : (lineText u line "bdate").Encodes
  deals : ∀ deal ∈ deals, (Json.obj (outDeal config deal)).AllTexts Encodes

def FieldWritten (f : Text × Json) : Prop := f.1.Encodes ∧ f.2.AllTexts Encodes

theorem fieldWritten_text : FieldWritten (textField key t) ↔ t.Encodes :=
  and_iff_right (Text.encodes_lit key)

theorem fieldWritten_obj {fields : Fields} :
    FieldWritten (Text.lit key, .arr [.obj fields]) ↔ ∀ f ∈ fields, FieldWritten f := by
  simp only [FieldWritten, Text.encodes_lit, Json.AllTexts, Json.AllTextsItems, true_and, and_true,
    Json.allTextsFields_iff]

theorem fieldWritten_filled : (∀ f ∈ filledField key t, FieldWritten f) ↔ t.Encodes := by
  unfold filledField
  split
  · rename_i h
    subst h
    exact iff_of_true (by simp) (Text.encodes_lit "")
  · rw [List.forall_mem_singleton, fieldWritten_text]

theorem fieldWritten_optional {o : Option Text} :
    (∀ f ∈ optionalField key o, FieldWritten f) ↔ ∀ t, o = some t → t.Encodes := by
  cases o with
  | none => simp [optionalField]
  | some t => simp [optionalField, fieldWritten_text]

theorem Doc.Written.fields {d : Doc} (h : d.Written) : ∀ f ∈ d.fields, FieldWritten f := by
  simp only [Doc.fields, List.forall_mem_append, List.forall_mem_cons, List.not_mem_nil,
    false_implies, implies_true, fieldWritten_text, fieldWritten_optional, and_true]
  exact ⟨⟨⟨⟨h.vdate, Text.encodes_lit _, h.dtype, h.dser, h.dnom⟩, h.dwho⟩,
    h.dwdt⟩, h.dterm⟩

theorem buildAddr_written (hrow : row.Decoded) (hvdate : vdate.Encodes) :
    ∀ f ∈ (buildAddr row vdate).toFields, FieldWritten f := by
  simp only [Addr.toFields, List.forall_mem_append, List.forall_mem_cons, List.not_mem_nil,
    false_implies, implies_true, fieldWritten_text, and_true]
  refine ⟨⟨hvdate, Text.encodes_lit _, Text.encodes_lit _, Text.encodes_lit _⟩, ?_⟩
  intro f hf
  obtain ⟨⟨key, t⟩, hmem, rfl⟩ := List.mem_map.mp hf
  obtain ⟨⟨target, source⟩, hsource, hkept⟩ := List.mem_filterMap.mp hmem
  simp only at hkept
  split at hkept
  · cases hkept
  · cases hkept
    refine fieldWritten_text.mpr (hrow.addr source ?_).stripped
    simp only [List.mem_cons, List.not_mem_nil, or_false, Prod.mk.injEq] at hsource ⊢
    tauto

theorem encodes_csex (h : innSex u inn = .ok csex) : ∀ t, csex = some t → t.Encodes := by
  unfold innSex at h
  split at h
  · split at h
    · cases h
      intro t ht
      cases ht
      exact Text.encodes_lit _
    · cases h
  · cases h
    exact fun t ht => nomatch ht

/-- Beside the texts of its line there is nothing in a subject that cannot be written. -/
theorem Stages.Ran.written_iff {s : Stages} (h : s.Ran u rows peers line) (hu : u.Scalar)
    (hrow : s.newest.Decoded)
    (hpeers : ∀ peer ∈ peers s.newest.userId, peer.passport.Decoded) :
    (s.subject u config line).toJson.AllTexts Encodes ↔ LineWritten u config line s.deals := by
  have hvdate := encodes_rowVdate h.vdate
  have hinn : s.inn.Encodes := verifyInn_eq_ok.mp h.verified ▸ hrow.userInn.stripped
  have hdoc := (buildDoc_written hu hrow hpeers hvdate h.doc).fields
  have haddr := buildAddr_written hrow hvdate
  have hphone := encodes_phone hrow h.phone
  obtain ⟨hlname, hfname, hbdate⟩ := lineNames_eq_ok h.names
  have hdeals : FieldWritten (Text.lit "deals", .arr ((s.deals.map (outDeal config)).map .obj)) ↔
      ∀ deal ∈ s.deals, (Json.obj (outDeal config deal)).AllTexts Encodes := by
    simp only [FieldWritten, Text.encodes_lit, true_and, Json.AllTexts, Json.allTextsItems_iff,
      List.forall_mem_map]
  have hcsex := encodes_csex h.csex
  have hident (hl : s.lname.Encodes) (hf : s.fname.Encodes) (hb : s.bdate.Encodes)
      (hm : (lineText u line "mname").Encodes) :
      ∀ f ∈ (s.subject u config line).ident.fields, FieldWritten f := by
    simp only [Ident.fields, Stages.subject, List.forall_mem_append, List.forall_mem_cons,
      List.not_mem_nil, false_implies, implies_true, and_true, fieldWritten_text,
      fieldWritten_filled, fieldWritten_optional]
    exact ⟨⟨⟨⟨hvdate, Text.encodes_lit _, hinn, hl, hf⟩, hm⟩, hb,
      Text.encodes_lit _⟩, hcsex⟩
  have hcontact : ∀ f ∈ (s.subject u config line).contact.fields, FieldWritten f := by
    simp only [Contact.fields, Stages.subject, List.forall_mem_cons, List.not_mem_nil,
      false_implies, implies_true, and_true, fieldWritten_text]
    exact ⟨hvdate, Text.encodes_lit _, hphone⟩
  rw [Subject.toJson, Json.AllTexts, Json.allTextsFields_iff]
  change (∀ f ∈ _, FieldWritten f) ↔ _
  simp only [List.forall_mem_append, List.forall_mem_cons, List.not_mem_nil, false_implies,
    implies_true, and_true, fieldWritten_text, fieldWritten_filled, fieldWritten_obj]
  constructor
  · rintro ⟨⟨⟨hreq, -, -, -, hl, hf⟩, hm⟩, hb, -, -, -, hd, -⟩
    exact ⟨hreq, hlname ▸ hl, hfname ▸ hf, hm, hbdate ▸ hb, hdeals.mp hd⟩
  · intro hw
    have hl := hlname ▸ hw.lname
    have hf := hfname ▸ hw.fname
    have hb := hbdate ▸ hw.bdate
    exact ⟨⟨⟨hw.reqlng, hinn, hrow.userId.toText, Text.encodes_lit _, hl, hf⟩,
      hw.mname⟩, hb,
      hident hl hf hb hw.mname, hdoc, haddr, hdeals.mpr hw.deals, hcontact⟩

end UbkiUploader
