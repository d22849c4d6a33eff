import Phrasebook.Json.Printer
import Phrasebook.Recognition.Basic

/-!
# Records of intents and recognitions

An intent is written as a JSON object. A recognition is written as the object of its intent with
the values of the entities by name, the time that it took and the use of the words; the record
may be laid over the fields of another object, of which it replaces those of the same names.
-/

namespace Phrasebook

/-- The record of an entity. -/
def Entity.toJson (e : Entity) : Json :=
  .ofFields [
    ("entity", .ofString e.name),
    ("value", .ofString e.value),
    ("raw_value", .ofString e.rawValue),
    ("start", .ofNat e.start),
    ("end", .ofNat e.stop),
    ("raw_start", .ofNat e.rawStart),
    ("raw_end", .ofNat e.rawStop)]

namespace Intent

/-- The fields of an intent's record, with the confidence as a numeral. -/
def fields (intent : Intent) (confidence : Option Numeral) : List (String × Json) :=
  [("text", .ofString intent.text),
    ("raw_text", .ofString intent.rawText),
    ("tokens", .ofStrings intent.tokens),
    ("raw_tokens", .ofStrings intent.rawTokens),
    ("intent", .ofFields [
      ("name", .ofString? intent.name),
      ("confidence", .ofNumeral? confidence)]),
    ("entities", .array (intent.entities.map Entity.toJson))]

/-- The record of an intent. -/
def toJson (intent : Intent) : Json :=
  .ofFields (intent.fields (Numeral.ofSingle? intent.confidence))

end Intent

/-- The record of the use of the words. -/
def Diagnostics.toJson (d : Diagnostics) : Json :=
  .ofFields [
    ("total_tokens", .ofNat d.total),
    ("matched_tokens", .ofNat d.matched),
    ("skipped_tokens", .ofNat d.skipped),
    ("skipped_stop_words", .ofNat d.skippedStopWords)]

namespace Recognition

/-- The fields of a recognition's record, given the time that it took in seconds. The confidence is
written with double precision. -/
def fields (r : Recognition) (seconds : Float) : List (String × Json) :=
  r.intent.fields (Numeral.ofDouble? r.intent.confidence.toFloat) ++
    [("slots", .ofFields (r.intent.slots.map Json.ofString).entries),
      ("recognize_seconds", .ofNumeral? (Numeral.ofDouble? seconds))] ++
    (r.diagnostics.map fun d => ("diagnostics", d.toJson)).toList

/-- The record of a recognition laid over some fields, with the fields in the order of their
names. -/
def laidOver (r : Recognition) (seconds : Float) (around : List (String × Json)) : Json :=
  .ofFields (Table.ofList (around ++ r.fields seconds)).entries

end Recognition

end Phrasebook
