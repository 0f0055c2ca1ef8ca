import Std.Data.ExtTreeMap
import DavisJr.Lib.Outcome
import DavisJr.Lib.Str
import DavisJr.Errors

/- `path.rs`: route patterns. `Path.new` parses a pattern (or a request path, which
   goes through the same parser), `Path.eq` is the comparison that decides whether
   a request matches, and `Path.extract` walks the request a second time to bind
   the parameters. A loop of the source is a recursion or a fold over the items it
   visits, with the loop's variables as a state; `self.0[i]` is `Outcome.index`,
   which panics out of range. Printing (`Path.toString`) gives a pattern's text again,
   and the order of paths (`Path.cmp`) is that of their texts. -/
namespace DavisJr
open Lib Lib.Str

/-- `BTreeMap<String, String>`. -/
abbrev Params := Std.ExtTreeMap String String compare

inductive RoutePart where
  | wildcard
  | pathComponent (s : String)
  | param (s : String)
  | leader
  deriving DecidableEq, Repr

structure Path where
  parts : List RoutePart
  deriving DecidableEq, Repr

namespace Path

/-- `Path::default`. -/
def default : Path := ⟨[.leader]⟩

def push (self : Path) (arg : RoutePart) : Path := ⟨self.parts ++ [arg]⟩

/-! `Path::new`. -/

structure NewState where
  parts : Path
  wildcard : Bool
  deriving DecidableEq, Repr

/-- One iteration of `for arg in args`. -/
def newStep (st : NewState) (arg : String) : Except ServerError NewState :=
  if startsWith arg ':' then
    if st.wildcard then
      .error ⟨"params may not immediately follow wildcards due to ambiguity"⟩
    else
      .ok { st with parts := st.parts.push (.param (trimStartMatches arg ':')) }
  else if arg = "*" then
    if st.wildcard then
      .error ⟨"no more than one wildcard may be used in a path"⟩
    else
      .ok { parts := st.parts.push .wildcard, wildcard := true }
  else if arg = "" then
    -- repeated slashes: the flag stays as it is
    .ok st
  else
    .ok { parts := st.parts.push (.pathComponent arg), wildcard := false }

def new (path : String) : Except ServerError Path :=
  let path := trimEndMatches path '/'
  if contains path '/' then
    ((split path '/').foldlM newStep ⟨default, false⟩).map NewState.parts
  else
    .ok default

/-- The names of the params, in order. -/
def params (self : Path) : List String :=
  self.parts.filterMap fun
    | .param p => some p
    | _ => none

/-! `PartialEq for Path`. -/

structure EqState where
  i : Nat
  leaderSeen : Bool
  wildcard : Bool
  deriving DecidableEq, Repr

/-- The `match self.0[i]` of the loop: its result and the state it leaves. -/
def eqArm {ε : Type} (self : Path) (st : EqState) (arg : RoutePart) : Outcome ε (Bool × EqState) := do
  match ← Outcome.index self.parts st.i with
  | .pathComponent _ => return ((← Outcome.index self.parts st.i) == arg, st)
  | .wildcard =>
    if st.wildcard then
      if self.parts.length < st.i + 1 then
        match ← Outcome.index self.parts (st.i + 1) with
        | .pathComponent n =>
          if .pathComponent n = arg then
            -- `i` moves again at the end of the iteration, as `wildcard` is false
            return (true, { st with i := st.i + 1, wildcard := false })
          else
            return (true, st)
        | _ => return (true, st)
      else
        return (true, st)
    else
      return (true, { st with wildcard := true })
  | .param _ => return (true, st)
  | .leader =>
    if st.leaderSeen then
      return (false, st)
    else
      return (true, { st with leaderSeen := true })

/-- `for arg in other.0.clone()`. -/
def eqLoop {ε : Type} (self : Path) : EqState → List RoutePart → Outcome ε Bool
  | _, [] => .ok true
  | st, arg :: rest => do
    let (res, st) ← self.eqArm st arg
    if !res then
      return false
    self.eqLoop (if !st.wildcard then { st with i := st.i + 1 } else st) rest

/-- `self == other`: `self` is the pattern. -/
def eq {ε : Type} (self other : Path) : Outcome ε Bool :=
  if other.parts.length ≠ self.parts.length ∧ .wildcard ∉ self.parts then
    .ok false
  else
    self.eqLoop ⟨0, false, false⟩ other.parts

def «matches» (self : Path) (s : String) : Outcome Error Bool := do
  self.eq (← Outcome.mapErr Error.ofServerError (.ofExcept (new s)))

/-! `Path::extract`. -/

structure ExtractState where
  params : Params
  wildcardVec : List String
  wildcard : Bool
  i : Nat

/-- The state before the first iteration. -/
def ExtractState.init : ExtractState := ⟨∅, [], false, 0⟩

/-- One iteration of `for part in parts`. -/
def extractStep (self : Path) (st : ExtractState) (part : String) : Outcome ServerError ExtractState := do
  let cur ← Outcome.index self.parts st.i
  if st.wildcard then
    match cur with
    | .wildcard => .ok { st with wildcardVec := st.wildcardVec ++ [part] }
    | .param _ => .err ⟨"params may not immediately follow wildcards due to ambiguity"⟩
    | .pathComponent p =>
      if p = part then
        -- unlike the move below, this one does not look at the number of parts
        .ok { st with
          wildcard := false
          i := st.i + 1
          params := st.params.insert "*" (join st.wildcardVec "/") }
      else
        .ok { st with wildcardVec := st.wildcardVec ++ [part] }
    | .leader => .err ⟨"Leaders may not follow wildcards. How'd you get here? :)"⟩
  else
    let st ← match cur with
      | .wildcard => .ok { st with wildcardVec := st.wildcardVec ++ [part], wildcard := true }
      | .param p => .ok { st with params := st.params.insert p part }
      | .pathComponent pathPart =>
        if part ≠ pathPart then
          .err ⟨"invalid path for parameter extraction"⟩
        else
          .ok st
      | .leader => .ok st
    return if self.parts.length - 1 > st.i then { st with i := st.i + 1 } else st

/-- What follows the loop: a wildcard still open at the end is bound. -/
def ExtractState.finish (st : ExtractState) : Params :=
  if st.wildcard then st.params.insert "*" (join st.wildcardVec "/") else st.params

def extract (self : Path) (provided : String) : Outcome ServerError Params := do
  let trimmed := trimEndMatches provided '/'
  if ← (if trimmed = "" then self.eq default else .ok false) then
    return ∅
  else
    if !(← Outcome.unwrapOr (self.matches provided) false) then
      .err ⟨"route does not match"⟩
    else
      let st ← (split trimmed '/').foldlM self.extractStep .init
      return st.finish

/-! `ToString for Path` and `Ord for Path`. -/

/-- What a part is printed as. -/
def partText : RoutePart → String
  | .wildcard => "*"
  | .pathComponent pc => pc
  | .param param => ":" ++ param
  | .leader => ""

def toString (self : Path) : String :=
  let s := self.parts.map partText
  if s.length < 2 then "/" else join s "/"

/-- The order of the printed texts. -/
def cmp (self other : Path) : Ordering := compare self.toString other.toString

end Path
end DavisJr
