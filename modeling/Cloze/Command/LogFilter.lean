/-!
# Log filters

A log filter is a list of directives with commas between them. A directive names a level, or a
part of the program with the level that holds there, as in `debug` or `search=trace`; in brackets
it may name a span of the run and fields of it. Nothing is logged here, so a filter is only checked.
-/

namespace Cloze.LogFilter

inductive FilterError where
  | badDirective
  | badLevel
deriving DecidableEq

def FilterError.message : FilterError → String
  | badDirective => "invalid filter directive"
  | badLevel =>
    "error parsing level filter: expected one of \"off\", \"error\", \"warn\", \"info\", "
      ++ "\"debug\", \"trace\", or a number 0-5"

/-- The name of a level in any case, a number up to five, or nothing. -/
def isLevel (text : String) : Bool :=
  let digits := match text.toList with
    | '+' :: cs => cs
    | cs => cs
  ["", "off", "error", "warn", "info", "debug", "trace"].contains text.toLower
    || (!digits.isEmpty && digits.all Char.isDigit
      && ["0", "1", "2", "3", "4", "5", ""].contains
        (String.ofList (digits.dropWhile (· == '0'))))

/-- What a part of the program or a level may start with. Letters and digits beyond ASCII count
too, and none of them is told apart here from other characters beyond ASCII. -/
def startsName (c : Char) : Bool :=
  c.isAlphanum || c == '-' || c == ':' || c == '_' || c.toNat ≥ 128

/-- A level behind its `=`. -/
def checkLevel (cs : List Char) : Except FilterError Unit :=
  if isLevel (String.ofList cs) then .ok () else .error .badLevel

/-- What follows a span in brackets. -/
def checkBehind : List Char → Except FilterError Unit
  | [] => .ok ()
  | '=' :: cs => checkLevel cs
  | _ => .error .badDirective

/-- The fields of a span, from behind their opening brace on. -/
def checkFields (cs : List Char) : Except FilterError Unit :=
  if (cs.takeWhile (· != '\x7d')).isEmpty then
    .error .badDirective
  else
    match cs.dropWhile (· != '\x7d') with
    | _ :: ']' :: rest => checkBehind rest
    | _ => .error .badDirective

/-- A span, from behind its opening bracket on. -/
def checkSpan (cs : List Char) : Except FilterError Unit :=
  match cs.dropWhile fun c => c != ']' && c != '\x7b' with
  | ']' :: rest => checkBehind rest
  | '\x7b' :: rest => checkFields rest
  | _ => .error .badDirective

def checkDirective : List Char → Except FilterError Unit
  | [] => .error .badDirective
  | '[' :: cs => checkSpan cs
  | c :: cs =>
    if !startsName c then
      .error .badDirective
    else
      match cs.dropWhile fun c => c != '=' && c != '[' with
      | '=' :: rest => checkLevel rest
      | '[' :: rest => checkSpan rest
      | _ => .ok ()

/-- The parts of a text between commas. -/
def splitCommas : List Char → List (List Char)
  | [] => [[]]
  | c :: cs =>
    if c = ',' then
      [] :: splitCommas cs
    else
      match splitCommas cs with
      | [] => [[c]]
      | part :: parts => (c :: part) :: parts

/-- Whether a text is a log filter. Empty directives are passed over. -/
def check (text : String) : Except FilterError Unit :=
  ((splitCommas text.toList).filter (!·.isEmpty)).forM checkDirective

end Cloze.LogFilter
