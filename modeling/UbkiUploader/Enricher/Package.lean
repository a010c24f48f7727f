import UbkiUploader.Enricher.Line

/-!
# A subject as it is sent

The keys of a subject and of its blocks, in the order in which `enrich_line` puts
them. What the cabinet does not have is left out.
-/

namespace UbkiUploader

def langUkrainian : Text := Text.lit "1"

def citizenshipUkraine : Text := Text.lit "804"

def addrTypeActual : Text := Text.lit "2"

def contactTypeMobile : Text := Text.lit "3"

def textField (key : String) (t : Text) : Text × Json := (Text.lit key, .str t)

/-- A field that is left out without a value. -/
def optionalField (key : String) : Option Text → Fields
  | none => []
  | some t => [textField key t]

/-- A field that is left out when empty. -/
def filledField (key : String) (t : Text) : Fields := if t = [] then [] else [textField key t]

def Ident.fields (i : Ident) : Fields :=
  [textField "vdate" i.vdate, textField "lng" langUkrainian, textField "inn" i.inn,
    textField "lname" i.lname, textField "fname" i.fname] ++
  filledField "mname" i.mname ++
  [textField "bdate" i.bdate, textField "cgrag" citizenshipUkraine] ++
  optionalField "csex" i.csex

def Doc.fields (d : Doc) : Fields :=
  [textField "vdate" d.vdate, textField "lng" langUkrainian, textField "dtype" d.dtype,
    textField "dser" d.dser, textField "dnom" d.dnom] ++
  optionalField "dwho" d.dwho ++ optionalField "dwdt" d.dwdt ++ optionalField "dterm" d.dterm

def Addr.toFields (a : Addr) : Fields :=
  [textField "vdate" a.vdate, textField "lng" langUkrainian, textField "adtype" addrTypeActual,
    textField "adcountry" citizenshipUkraine] ++
  a.fields.map fun (key, t) => (key, .str t)

def Contact.fields (c : Contact) : Fields :=
  [textField "vdate" c.vdate, textField "ctype" contactTypeMobile, textField "cval" c.cval]

def Subject.toJson (s : Subject) : Json :=
  .obj ([textField "reqlng" s.reqlng, textField "inn" s.inn, textField "person_id" s.personId,
      textField "is_gone" (Text.lit "0"), textField "lname" s.lname, textField "fname" s.fname] ++
    filledField "mname" s.mname ++
    [textField "bdate" s.bdate,
      (Text.lit "idents", .arr [.obj s.ident.fields]),
      (Text.lit "docs", .arr [.obj s.doc.fields]),
      (Text.lit "addrs", .arr [.obj s.addr.toFields]),
      (Text.lit "deals", .arr (s.deals.map .obj)),
      (Text.lit "contacts", .arr [.obj s.contact.fields])])

/-- `json.dumps(subject, ensure_ascii=False, separators=(",", ":"))` -/
def Subject.dumps (s : Subject) : Text := s.toJson.dumps .compact

end UbkiUploader
