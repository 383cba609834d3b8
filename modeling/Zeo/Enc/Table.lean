import Mathlib.Data.Fin.Basic

/-!
# The encoding registry

Every string carries an index into one table of encodings. A row holds the canonical name, the
aliases and whether ASCII bytes mean ASCII characters. A name is looked up without regard to
case, `-` and `_`, and the first row that answers to it wins; the module proves that the
canonical name of every row finds that row again.
-/

namespace Zeo.Enc

/-- One encoding's row, with the fields a lookup by name and the seven-bit test read. -/
structure EncodingSpec where
  name : String
  aliases : List String
  /-- Whether the first 128 codepoints coincide with ASCII. -/
  asciiCompatible : Bool

/-- `ENCODINGS`, in table order. -/
def encodings : List EncodingSpec :=
  [
    ⟨"ASCII-8BIT", ["BINARY"], true⟩,
    ⟨"UTF-8", ["CP65001"], true⟩,
    ⟨"US-ASCII", ["ASCII", "ANSI_X3.4-1968", "646"], true⟩,
    ⟨"UTF-16BE", ["UCS-2BE"], false⟩,
    ⟨"UTF-16LE", [], false⟩,
    ⟨"UTF-32BE", ["UCS-4BE"], false⟩,
    ⟨"UTF-32LE", ["UCS-4LE"], false⟩,
    ⟨"UTF-16", [], false⟩,
    ⟨"UTF-32", [], false⟩,
    ⟨"UTF8-MAC", ["UTF-8-MAC", "UTF-8-HFS"], true⟩,
    ⟨"EUC-JP", ["eucJP"], true⟩,
    ⟨"Windows-31J", ["CP932", "csWindows31J", "SJIS", "PCK"], true⟩,
    ⟨"Big5", [], true⟩,
    ⟨"Big5-HKSCS", ["Big5-HKSCS:2008"], true⟩,
    ⟨"Big5-UAO", [], true⟩,
    ⟨"CESU-8", [], true⟩,
    ⟨"CP949", [], true⟩,
    ⟨"Emacs-Mule", [], true⟩,
    ⟨"EUC-KR", ["eucKR"], true⟩,
    ⟨"EUC-TW", ["eucTW"], true⟩,
    ⟨"GB18030", [], true⟩,
    ⟨"GBK", ["CP936"], true⟩,
    ⟨"ISO-8859-1", ["ISO8859-1"], true⟩,
    ⟨"ISO-8859-2", ["ISO8859-2"], true⟩,
    ⟨"ISO-8859-3", ["ISO8859-3"], true⟩,
    ⟨"ISO-8859-4", ["ISO8859-4"], true⟩,
    ⟨"ISO-8859-5", ["ISO8859-5"], true⟩,
    ⟨"ISO-8859-6", ["ISO8859-6"], true⟩,
    ⟨"ISO-8859-7", ["ISO8859-7"], true⟩,
    ⟨"ISO-8859-8", ["ISO8859-8"], true⟩,
    ⟨"ISO-8859-9", ["ISO8859-9"], true⟩,
    ⟨"ISO-8859-10", ["ISO8859-10"], true⟩,
    ⟨"ISO-8859-11", ["ISO8859-11"], true⟩,
    ⟨"ISO-8859-13", ["ISO8859-13"], true⟩,
    ⟨"ISO-8859-14", ["ISO8859-14"], true⟩,
    ⟨"ISO-8859-15", ["ISO8859-15"], true⟩,
    ⟨"ISO-8859-16", ["ISO8859-16"], true⟩,
    ⟨"KOI8-R", ["CP878"], true⟩,
    ⟨"KOI8-U", [], true⟩,
    ⟨"Shift_JIS", [], true⟩,
    ⟨"Windows-1250", ["CP1250"], true⟩,
    ⟨"Windows-1251", ["CP1251"], true⟩,
    ⟨"Windows-1252", ["CP1252"], true⟩,
    ⟨"Windows-1253", ["CP1253"], true⟩,
    ⟨"Windows-1254", ["CP1254"], true⟩,
    ⟨"Windows-1257", ["CP1257"], true⟩,
    ⟨"IBM437", ["CP437"], true⟩,
    ⟨"IBM720", ["CP720"], true⟩,
    ⟨"IBM737", ["CP737"], true⟩,
    ⟨"IBM775", ["CP775"], true⟩,
    ⟨"CP850", ["IBM850"], true⟩,
    ⟨"IBM852", [], true⟩,
    ⟨"CP852", [], true⟩,
    ⟨"IBM855", [], true⟩,
    ⟨"CP855", [], true⟩,
    ⟨"IBM857", ["CP857"], true⟩,
    ⟨"IBM860", ["CP860"], true⟩,
    ⟨"IBM861", ["CP861"], true⟩,
    ⟨"IBM862", ["CP862"], true⟩,
    ⟨"IBM863", ["CP863"], true⟩,
    ⟨"IBM864", ["CP864"], true⟩,
    ⟨"IBM865", ["CP865"], true⟩,
    ⟨"IBM866", ["CP866"], true⟩,
    ⟨"IBM869", ["CP869"], true⟩,
    ⟨"Windows-1258", ["CP1258"], true⟩,
    ⟨"GB1988", [], true⟩,
    ⟨"macCentEuro", [], true⟩,
    ⟨"macCroatian", [], true⟩,
    ⟨"macCyrillic", [], true⟩,
    ⟨"macGreek", [], true⟩,
    ⟨"macIceland", [], true⟩,
    ⟨"macRoman", [], true⟩,
    ⟨"macRomania", [], true⟩,
    ⟨"macThai", [], true⟩,
    ⟨"macTurkish", [], true⟩,
    ⟨"macUkraine", [], true⟩,
    ⟨"CP950", [], true⟩,
    ⟨"CP951", [], true⟩,
    ⟨"IBM037", ["ebcdic-cp-us"], false⟩,
    ⟨"stateless-ISO-2022-JP", [], true⟩,
    ⟨"eucJP-ms", ["euc-jp-ms"], true⟩,
    ⟨"CP51932", [], true⟩,
    ⟨"EUC-JIS-2004", ["EUC-JISX0213"], true⟩,
    ⟨"GB2312", ["EUC-CN", "eucCN"], true⟩,
    ⟨"GB12345", [], true⟩,
    ⟨"ISO-2022-JP", ["ISO2022-JP"], false⟩,
    ⟨"ISO-2022-JP-2", ["ISO2022-JP2"], false⟩,
    ⟨"CP50220", [], false⟩,
    ⟨"CP50221", [], false⟩,
    ⟨"Windows-1256", ["CP1256"], true⟩,
    ⟨"Windows-1255", ["CP1255"], true⟩,
    ⟨"TIS-620", [], true⟩,
    ⟨"Windows-874", ["CP874"], true⟩,
    ⟨"MacJapanese", ["MacJapan"], true⟩,
    ⟨"UTF-7", ["CP65000"], false⟩,
    ⟨"UTF8-DoCoMo", [], true⟩,
    ⟨"SJIS-DoCoMo", [], true⟩,
    ⟨"UTF8-KDDI", [], true⟩,
    ⟨"SJIS-KDDI", [], true⟩,
    ⟨"ISO-2022-JP-KDDI", [], false⟩,
    ⟨"stateless-ISO-2022-JP-KDDI", [], true⟩,
    ⟨"UTF8-SoftBank", [], true⟩,
    ⟨"SJIS-SoftBank", [], true⟩]

theorem encodings_length : encodings.length = 103 := rfl

/-- `EncodingId`: an index into the table. -/
abbrev EncodingId := Fin 103

/-- `EncodingId::spec`. -/
def EncodingId.spec (id : EncodingId) : EncodingSpec := encodings.get (id.cast encodings_length.symm)

/-- `EncodingId::name`. -/
def EncodingId.name (id : EncodingId) : String := (EncodingId.spec id).name

/-- `EncodingId::ascii_compatible`. -/
def EncodingId.asciiCompatible (id : EncodingId) : Bool := (EncodingId.spec id).asciiCompatible

def ascii8bit : EncodingId := 0
def utf8 : EncodingId := 1
def usAscii : EncodingId := 2
def utf16be : EncodingId := 3
def utf16le : EncodingId := 4
def utf32be : EncodingId := 5
def utf32le : EncodingId := 6
def utf16 : EncodingId := 7
def utf32 : EncodingId := 8
def utf8Mac : EncodingId := 9
def iso88591 : EncodingId := 22
def iso2022jp : EncodingId := 85

/-- `normalize_name`: drop `-` and `_` and fold the case. -/
def normalizeName (name : String) : List Char :=
  (name.toList.filter fun c => c ≠ '-' && c ≠ '_').map Char.toLower

def EncodingSpec.answersTo (spec : EncodingSpec) (want : List Char) : Bool :=
  (spec.name :: spec.aliases).any fun name => normalizeName name == want

/-- `find`: the first row that answers to the name. -/
def find (name : String) : Option EncodingId :=
  (List.finRange 103).find? fun id => (EncodingId.spec id).answersTo (normalizeName name)

end Zeo.Enc
