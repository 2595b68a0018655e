/-
The XSD datatypes as numbers and as IRIs (`semantics/Datatypes.h`, `.cpp`).
The numbers are what storage holds, and `ofInt32_toInt32` says they tell the
types apart; `fromIri` is how a datatype IRI found in data becomes a tag.
-/
import GengoDB.Variant

namespace GengoDB

/-- The bytes of an ASCII text. -/
def ascii (s : String) : Bytes := s.toList.map fun c => Fin.ofNat 256 c.toNat

namespace XsdType

/-- `to_int32`: the explicit enumerator values. -/
def toInt32 : XsdType → Nat
  | unspecified => 0
  | string => 1 | boolean => 2 | decimal => 3 | float => 4 | double => 5 | duration => 6 | dateTime => 7
  | time => 8 | date => 9 | gYearMonth => 10 | gYear => 11 | gMonthDay => 12 | gDay => 13 | gMonth => 14
  | hexBinary => 15 | base64Binary => 16 | anyURI => 17 | qName => 18 | notation_ => 19
  | normalizedString => 100 | token => 101 | language => 102 | nmtoken => 103 | nmtokens => 104 | name => 105
  | ncName => 106 | id => 107 | idref => 108 | idrefs => 109 | entity => 110 | entities => 111
  | integer => 200 | nonPositiveInteger => 201 | negativeInteger => 202 | long => 203 | int => 204 | short => 205
  | byte => 206 | nonNegativeInteger => 207 | unsignedLong => 208 | unsignedInt => 209 | unsignedShort => 210
  | unsignedByte => 211 | positiveInteger => 212
  | node => 1000 | langString => 1001 | anyIRI => 1002 | anyLiteralNode => 1003 | anyLiteralScalar => 1004
  | edge => 1005

/-- The table of `to_string` and `from_string`. The resource tags have no
name. -/
def names : List (String × XsdType) :=
  [("unspecified", unspecified),
   ("string", string), ("boolean", boolean), ("decimal", decimal), ("float", float), ("double", double),
   ("duration", duration), ("dateTime", dateTime), ("time", time), ("date", date), ("gYearMonth", gYearMonth),
   ("gYear", gYear), ("gMonthDay", gMonthDay), ("gDay", gDay), ("gMonth", gMonth), ("hexBinary", hexBinary),
   ("base64Binary", base64Binary), ("anyURI", anyURI), ("QName", qName), ("NOTATION", notation_),
   ("normalizedString", normalizedString), ("token", token), ("language", language), ("NMTOKEN", nmtoken),
   ("NMTOKENS", nmtokens), ("Name", name), ("NCName", ncName), ("ID", id), ("IDREF", idref), ("IDREFS", idrefs),
   ("ENTITY", entity), ("ENTITIES", entities),
   ("integer", integer), ("nonPositiveInteger", nonPositiveInteger), ("negativeInteger", negativeInteger),
   ("long", long), ("int", int), ("short", short), ("byte", byte), ("nonNegativeInteger", nonNegativeInteger),
   ("unsignedLong", unsignedLong), ("unsignedInt", unsignedInt), ("unsignedShort", unsignedShort),
   ("unsignedByte", unsignedByte), ("positiveInteger", positiveInteger),
   ("langString", langString), ("anyLiteralNode", anyLiteralNode), ("anyLiteralScalar", anyLiteralScalar)]

/-- Every enumerator. -/
def all : List XsdType := names.map (·.2) ++ [node, anyIRI, edge]

/-- `static_cast<xsd::Type>` of a number; `none` is not an enumerator. -/
def ofInt32 (n : Nat) : Option XsdType := all.find? (·.toInt32 == n)

@[simp] theorem ofInt32_toInt32 (t : XsdType) : ofInt32 t.toInt32 = some t := by
  cases t <;> rfl

theorem toInt32_lt (t : XsdType) : t.toInt32 < 2 ^ 31 := by
  cases t <;> decide

def fromString (name : Bytes) : Option XsdType :=
  (names.find? fun e => ascii e.1 == name).map (·.2)

def xsdNamespace : Bytes := ascii "http://www.w3.org/2001/XMLSchema#"

def rdfLangStringIri : Bytes := ascii "http://www.w3.org/1999/02/22-rdf-syntax-ns#langString"

/-- `from_iri`; `none` is the null IRI. -/
def fromIri : Option Bytes → XsdType
  | none => unspecified
  | some iri =>
    if iri = rdfLangStringIri then langString
    else if ¬ xsdNamespace <+: iri then anyLiteralNode
    else if iri.drop xsdNamespace.length = [] then anyLiteralNode
    else (fromString (iri.drop xsdNamespace.length)).getD anyLiteralNode

/-- `xsd:` and a local name. -/
def xsdIri (localName : String) : Bytes := xsdNamespace ++ ascii localName

end XsdType
end GengoDB
