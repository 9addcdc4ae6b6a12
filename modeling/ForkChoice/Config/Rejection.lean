import ForkChoice.Config.Scan
import ForkChoice.Text.Quoted
import ForkChoice.Timing

/-!
# Rejected configurations

* `Mismatch`: a text that is well formed as far as it was read but does not say what it should.
* `Rejection`: why a text is no configuration, with `Rejection.message` for the reader.
-/

namespace ForkChoice.Config

/-- A value that stands where another kind of value is due. -/
inductive Found where
  | null
  | boolean (value : Bool)
  | number (value : Number)
  | string (text : String)
  | sequence
  | map

namespace Found

def describe : Found → String
  | null => "null"
  | boolean true => "boolean `true`"
  | boolean false => "boolean `false`"
  | number (.integer i) => "integer `" ++ toString i ++ "`"
  | number (.float true x) => "floating point `-" ++ x.text ++ "`"
  | number (.float false x) => "floating point `" ++ x.text ++ "`"
  | string text => "string " ++ Text.quote text
  | sequence => "sequence"
  | map => "map"

end Found

/-- What is due at a place of a configuration. -/
inductive Due where
  /-- A whole configuration. -/
  | timing
  | seconds
  deriving DecidableEq, Repr

namespace Due

def describe : Due → String
  | timing => "struct ValidationParams"
  | seconds => "u64"

end Due

/-- What a text says in place of what it should. -/
inductive Mismatch where
  | unknownKey (name : String)
  | repeatedKey (field : Timing.Field)
  | wrongType (found : Found) (due : Due)
  /-- A number of seconds below zero. -/
  | negative (value : Int)

namespace Mismatch

def message : Mismatch → String
  | unknownKey name =>
      "unknown field `" ++ name ++ "`, expected one of " ++
        String.intercalate ", " (Timing.Field.all.map fun f => "`" ++ f.key ++ "`")
  | repeatedKey field => "duplicate field `" ++ field.key ++ "`"
  | wrongType found due => "invalid type: " ++ found.describe ++ ", expected " ++ due.describe
  | negative value =>
      "invalid value: integer `" ++ toString value ++ "`, expected " ++ Due.seconds.describe

end Mismatch

/-- Why a text is no configuration. -/
inductive Rejection where
  | broken (how : Break)
  | mismatch (what : Mismatch)
  | flawed (flaw : Timing.Flaw)

namespace Rejection

/-- The wording of a rejection, for those that have one. -/
def message : Rejection → Option String
  | broken _ => none
  | mismatch what => some ("invalid validation parameters: " ++ what.message)
  | flawed flaw => some flaw.message

end Rejection

end ForkChoice.Config
