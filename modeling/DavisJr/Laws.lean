import DavisJr.Print
import DavisJr.Router

/- The equality and the order that paths and routes declare. The order compares printed
   texts and calls only identical paths equal (`cmp_eq_iff`); the equality is the
   matcher, one pattern covering another (`Covers`, `eq_iff_covers`). Both are declared
   as `Eq` and `Ord`, and the laws of these hold where the pattern covers nothing but
   itself (`lawful_iff`). -/
namespace DavisJr
open Lib Lib.Str Lib.Glob

/-! What `Eq` and `Ord` promise. -/

/-- The laws of an equality `E` and of an order that calls the pairs of `C` equal, at
    three values. -/
structure LawfulAt {α : Type} (E C : α → α → Prop) (a b c : α) : Prop where
  refl : E a a
  symm : E a b → E b a
  trans : E a b → E b c → E a c
  cmp : E a b ↔ C a b

/-- Where the order calls only interchangeable values equal, the laws come down to one
    direction of the last. -/
theorem lawfulAt_iff {α : Type} {E C : α → α → Prop} {a b c : α} (hself : E a a)
    (hsame : C a b → E a b ∧ E b a ∧ (E b c → E a c)) : LawfulAt E C a b c ↔ (E a b → C a b) := by
  constructor
  · exact fun h => h.cmp.mp
  · intro h
    exact ⟨hself, fun hab => (hsame (h hab)).2.1, fun hab => (hsame (h hab)).2.2,
      ⟨h, fun hab => (hsame hab).1⟩⟩

/-! The equality. -/

/-- Every path covers itself. -/
theorem covers_self (p : Path) : Covers p p := by
  refine ⟨?_, fun _ => rfl⟩
  rw [agreeOn_iff_getElem?]
  intro i a b ha hb
  -- what stands before the wildcard stands at the same positions of the whole
  have hprefix : before .wildcard p.parts <+: p.parts := List.takeWhile_prefix _
  obtain ⟨u, hu⟩ := hprefix
  have hlt := (List.getElem?_eq_some_iff.mp ha).1
  rw [← hu, List.getElem?_append_left hlt, ha] at hb
  cases hb
  cases a with
  | param n => exact trivial
  | _ => rfl

/-! Methods in front of paths. -/

/-- No method has a space. -/
theorem space_not_mem_method (m : Method) : ' ' ∉ m.toString.toList := by
  cases m with
  | std m => cases m <;> decide
  | extension m => exact m.noSpace

theorem asStr_inj {m n : StdMethod} (h : m.asStr = n.asStr) : m = n := by
  cases m <;> cases n <;> first | rfl | exact absurd h (by decide)

theorem method_toString_inj {m n : Method} : m.toString = n.toString ↔ m = n := by
  constructor
  · intro h
    cases m with
    | std m =>
      cases n with
      | std n => exact congrArg Method.std (asStr_inj h)
      | extension n => exact absurd h (n.notStd m)
    | extension m =>
      cases n with
      | std n => exact absurd h.symm (m.notStd n)
      | extension n =>
        obtain ⟨tm, _, _⟩ := m
        obtain ⟨tn, _, _⟩ := n
        cases h
        rfl
  · exact congrArg Method.toString

/-- A method and a path can be read back from the text that routes are ordered by. -/
theorem spaced_inj {m n t u : String} (hm : ' ' ∉ m.toList) (hn : ' ' ∉ n.toList) :
    m ++ " " ++ t = n ++ " " ++ u ↔ m = n ∧ t = u := by
  constructor
  · intro h
    have hlist : m.toList ++ ' ' :: t.toList = n.toList ++ ' ' :: u.toList := by
      simpa [← String.toList_inj] using h
    have hbefore := congrArg (before ' ') hlist
    have hafter := congrArg (after ' ') hlist
    rw [before_append hm, before_append hn] at hbefore
    rw [after_append hm, after_append hn] at hafter
    exact ⟨String.toList_inj.mp hbefore, String.toList_inj.mp hafter⟩
  · intro ⟨hmn, htu⟩
    rw [hmn, htu]

section Route
variable {F ε : Type} {s t : String} {a b : Route F}

theorem route_cmp_eq_iff (ha : Path.new s = .ok a.path) (hb : Path.new t = .ok b.path) :
    a.cmp b = .eq ↔ a.method = b.method ∧ a.path = b.path := by
  rw [Route.cmp, Std.compare_eq_iff_eq, spaced_inj (space_not_mem_method _) (space_not_mem_method _),
    method_toString_inj, toString_inj ha hb]

theorem route_eq_iff_covers (ha : Path.new s = .ok a.path) (hb : Path.new t = .ok b.path) :
    (a.eq b : Outcome ε Bool) = .ok true ↔ a.method = b.method ∧ Covers a.path b.path := by
  rw [← method_toString_inj, Route.eq]
  split
  · next hm => rw [eq_iff_covers ha hb, and_iff_right hm]
  · next hm => simp [hm]

end Route

/-- **Equality and order are lawful only where a pattern covers itself alone.** For all
    parsed paths, and for all routes with these paths: `==` is reflexive, symmetric and
    transitive and agrees with the order, exactly when the first path does not cover the
    second, or is the second; for routes, when this is so or their methods differ. -/
theorem lawful_iff {s t u : String} {p q r : Path} (hp : Path.new s = .ok p) (hq : Path.new t = .ok q)
    (hr : Path.new u = .ok r) :
    (LawfulAt (fun a b => (a.eq b : Outcome Empty Bool) = .ok true) (fun a b => a.cmp b = .eq) p q r ↔
      (Covers p q → p = q)) ∧
    ∀ (F : Type) (a b c : Route F), a.path = p → b.path = q → c.path = r →
      (LawfulAt (fun a b => (a.eq b : Outcome Empty Bool) = .ok true) (fun a b => a.cmp b = .eq) a b c ↔
        (a.method = b.method ∧ Covers p q → p = q)) := by
  constructor
  · rw [lawfulAt_iff ((eq_iff_covers hp hp).mpr (covers_self p))]
    · rw [eq_iff_covers hp hq, cmp_eq_iff hp hq]
    · intro h
      obtain rfl := (cmp_eq_iff hp hq).mp h
      have hself := (@eq_iff_covers Empty _ _ _ _ hp hp).mpr (covers_self p)
      exact ⟨hself, hself, id⟩
  · rintro F a b c rfl rfl rfl
    rw [lawfulAt_iff ((route_eq_iff_covers hp hp).mpr ⟨rfl, covers_self _⟩)]
    · rw [route_eq_iff_covers hp hq, route_cmp_eq_iff hp hq]
      exact ⟨fun h hab => (h hab).2, fun h hab => ⟨hab.1, h hab⟩⟩
    · intro h
      obtain ⟨hm, hpath⟩ := (route_cmp_eq_iff hp hq).mp h
      rw [route_eq_iff_covers hp hq, route_eq_iff_covers hq hp, route_eq_iff_covers hq hr,
        route_eq_iff_covers hp hr, hm, hpath]
      exact ⟨⟨rfl, covers_self _⟩, ⟨rfl, covers_self _⟩, id⟩

/-- `/a/:n` does not cover `/b/:n`. -/
theorem lawful_iff_disjoint :
    LawfulAt (fun a b : Path => (a.eq b : Outcome Empty Bool) = .ok true) (fun a b => a.cmp b = .eq)
      ⟨[.leader, .pathComponent "a", .param "n"]⟩ ⟨[.leader, .pathComponent "b", .param "n"]⟩ ⟨[.leader]⟩ :=
  (@lawful_iff "/a/:n" "/b/:n" "/" _ _ _ (by decide) (by decide) (by decide)).1.mpr
    fun h => absurd h.agree (by decide)

/-- `/:a` and `/b` are equal one way round only and not equal in the order, and so are
    two routes with them; `/:x/b/*` equals `/*`, which equals `/z/c`, which `/:x/b/*` does not. -/
theorem eq_not_lawful :
    (Path.new "/:a" = .ok ⟨[.leader, .param "a"]⟩ ∧ Path.new "/b" = .ok ⟨[.leader, .pathComponent "b"]⟩ ∧
      (Path.eq ⟨[.leader, .param "a"]⟩ ⟨[.leader, .pathComponent "b"]⟩ : Outcome Empty Bool) = .ok true ∧
      (Path.eq ⟨[.leader, .pathComponent "b"]⟩ ⟨[.leader, .param "a"]⟩ : Outcome Empty Bool) = .ok false ∧
      Path.cmp ⟨[.leader, .param "a"]⟩ ⟨[.leader, .pathComponent "b"]⟩ ≠ .eq) ∧
    (∀ (F : Type) (ch : Handler F),
      (Route.eq ⟨.std .get, ⟨[.leader, .param "a"]⟩, ch⟩ ⟨.std .get, ⟨[.leader, .pathComponent "b"]⟩, ch⟩ :
        Outcome Empty Bool) = .ok true ∧
      (Route.eq ⟨.std .get, ⟨[.leader, .pathComponent "b"]⟩, ch⟩ ⟨.std .get, ⟨[.leader, .param "a"]⟩, ch⟩ :
        Outcome Empty Bool) = .ok false) ∧
    Path.new "/:x/b/*" = .ok ⟨[.leader, .param "x", .pathComponent "b", .wildcard]⟩ ∧
      Path.new "/*" = .ok ⟨[.leader, .wildcard]⟩ ∧
      Path.new "/z/c" = .ok ⟨[.leader, .pathComponent "z", .pathComponent "c"]⟩ ∧
      (Path.eq ⟨[.leader, .param "x", .pathComponent "b", .wildcard]⟩ ⟨[.leader, .wildcard]⟩ :
        Outcome Empty Bool) = .ok true ∧
      (Path.eq ⟨[.leader, .wildcard]⟩ ⟨[.leader, .pathComponent "z", .pathComponent "c"]⟩ :
        Outcome Empty Bool) = .ok true ∧
      (Path.eq ⟨[.leader, .param "x", .pathComponent "b", .wildcard]⟩
        ⟨[.leader, .pathComponent "z", .pathComponent "c"]⟩ : Outcome Empty Bool) = .ok false :=
  ⟨by decide, fun _ _ => ⟨rfl, rfl⟩, by decide⟩

end DavisJr
