import DavisJr.Lib.Multimap
import DavisJr.Lib.Str

/- The types of the `http` and `hyper` crates that routing passes around: what
   `Router::dispatch` reads of a request (its method and the path of its URI),
   what `App::dispatch` sets on a response, and what only handlers look at. The
   body type is a parameter; the code needs no more of it than `Body::from` a
   string. The path is any text here. Which texts the parser of URIs lets through is a
   parameter of its own (`UriPaths`), of the results that say that some request exists. -/
namespace DavisJr
open Lib Lib.Str

/-- The methods with a constant of their own in `http::Method`. -/
inductive StdMethod where
  | options | get | post | put | delete | head | trace | connect | patch
  deriving DecidableEq, Repr

/-- `as_str` of a standard method. -/
def StdMethod.asStr : StdMethod → String
  | .options => "OPTIONS"
  | .get => "GET"
  | .post => "POST"
  | .put => "PUT"
  | .delete => "DELETE"
  | .head => "HEAD"
  | .trace => "TRACE"
  | .connect => "CONNECT"
  | .patch => "PATCH"

/-- A method with no constant: a token (so without a space) other than the
    standard ones. -/
structure ExtensionMethod where
  token : String
  noSpace : ' ' ∉ token.toList
  notStd : ∀ m : StdMethod, m.asStr ≠ token
  deriving DecidableEq

/-- `http::Method`. -/
inductive Method where
  | std (m : StdMethod)
  | extension (m : ExtensionMethod)
  deriving DecidableEq

/-- `to_string` of a method. -/
def Method.toString : Method → String
  | .std m => m.asStr
  | .extension m => m.token

/-- `http::StatusCode`: three digits. -/
structure StatusCode where
  code : Nat
  inRange : 100 ≤ code ∧ code < 1000
  deriving DecidableEq, Repr

namespace StatusCode

def ok : StatusCode := ⟨200, by decide⟩
def unauthorized : StatusCode := ⟨401, by decide⟩
def notFound : StatusCode := ⟨404, by decide⟩
def methodNotAllowed : StatusCode := ⟨405, by decide⟩
def internalServerError : StatusCode := ⟨500, by decide⟩

end StatusCode

/-- `http::HeaderMap`: each name once, with its values in order, at least one. -/
structure HeaderMap where
  entries : List (String × List String)
  distinct : (entries.map Prod.fst).Nodup
  hasValue : ∀ e ∈ entries, e.2 ≠ []
  deriving DecidableEq

def HeaderMap.empty : HeaderMap := ⟨[], by simp, by simp⟩

/-- `HeaderMap::append`. -/
def HeaderMap.append (self : HeaderMap) (name value : String) : HeaderMap :=
  ⟨Multimap.append name value self.entries, Multimap.nodup_append self.distinct,
    Multimap.ne_nil_append self.hasValue⟩

/-- `HeaderMap::get_all`: the values of a name, in order. -/
def HeaderMap.getAll (self : HeaderMap) (name : String) : List String := Multimap.values name self.entries

/-- `HeaderMap::get`: the first value of a name, which is looked up in lower case. -/
def HeaderMap.get (self : HeaderMap) (name : String) : Option String :=
  (self.getAll (String.ofList (name.toList.map Char.toLower))).head?

/-- `HeaderMap::into_iter`: the name comes with the first of its values only. -/
def HeaderMap.intoIter (self : HeaderMap) : List (Option String × String) := Multimap.iter self.entries

theorem HeaderMap.getAll_append (self : HeaderMap) (name value name' : String) :
    (self.append name value).getAll name' =
      if name = name' then self.getAll name' ++ [value] else self.getAll name' :=
  Multimap.values_append self.entries

theorem HeaderMap.named_intoIter (self : HeaderMap) (name : String) :
    Multimap.named name self.intoIter = (self.getAll name).take 1 := Multimap.named_iter self.distinct

/-- `http::Request`; `path` is `req.uri().path()`. -/
structure Request (B : Type) where
  method : Method
  path : String
  headers : HeaderMap
  body : B
  deriving DecidableEq

/-- The texts that the path of a URI can be. The parser of the `http` crate decides on them, and
    no more is asked of it than this: a path holds certain characters only, slashes and
    letters among them, and a slash with any of those after it is a path. Its limit on the
    length of a URI is left aside. -/
structure UriPaths where
  char : Char → Prop
  IsPath : String → Prop
  chars : ∀ {s}, IsPath s → ∀ c ∈ s.toList, char c
  isPath : ∀ {s}, startsWith s '/' = true → (∀ c ∈ s.toList, char c) → IsPath s
  slash : char '/'
  letter : ∀ c : Char, c.isAlpha = true → char c

namespace UriPaths

/-- The text can stand in a path. -/
def Holds (uri : UriPaths) (x : String) : Prop := ∀ c ∈ x.toList, uri.char c

/-- Every text, for results that are not about requests alone. -/
def any : UriPaths :=
  ⟨fun _ => True, fun _ => True, fun _ _ _ => trivial, fun _ _ => trivial, trivial, fun _ _ => trivial⟩

/-- The characters of a path as URIs are commonly written: letters, digits, marks, and `%` for
    the rest. -/
def isPathChar (c : Char) : Bool := c.isAlphanum || "/-._~!$&'()*+,;=:@%".toList.contains c

def pathChars : UriPaths where
  char c := isPathChar c = true
  IsPath s := startsWith s '/' = true ∧ ∀ c ∈ s.toList, isPathChar c = true
  chars h := h.2
  isPath hs hc := ⟨hs, hc⟩
  slash := by decide
  letter c hc := by simp [isPathChar, Char.isAlphanum, hc]

instance (x : String) : Decidable (pathChars.Holds x) :=
  decidable_of_iff (x.toList.all isPathChar = true) List.all_eq_true

variable {uri : UriPaths} {s x : String}

theorem isPath_slashed {parts : List String} {k : Nat} (h : ∀ x ∈ parts, uri.Holds x) :
    uri.IsPath (slashed parts '/' k) := by
  refine uri.isPath (startsWith_slashed _ _ _) fun c hc => ?_
  rcases mem_slashed hc with rfl | ⟨x, hx, hc⟩
  · exact uri.slash
  · exact h x hx c hc

theorem holds_of_mem_rawSegments (hs : uri.IsPath s) (hx : x ∈ rawSegments s '/') : uri.Holds x :=
  fun c hc => uri.chars hs c (mem_of_mem_rawSegments hx hc)

end UriPaths

/-- `http::Response`. -/
structure Response (B : Type) where
  status : StatusCode
  headers : HeaderMap
  body : B
  deriving DecidableEq

/-- `Body::from` a string. -/
class HttpBody (B : Type) where
  ofString : String → B

/-- Bodies that are their text. -/
instance : HttpBody String := ⟨id⟩

end DavisJr
