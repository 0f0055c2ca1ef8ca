import DavisJr.Verdict

/- The patterns that the parser accepts, and what it makes of them. The documentation
   allows one `*` in a pattern; the parser's flag is reset by the next literal, so a
   second `*` further on is accepted (`new_accepts_iff`). Every path that comes out
   satisfies the invariant that the other functions take for granted (`Parsed`), and
   two of the errors of extraction cannot occur (`new_parsed`). -/
namespace DavisJr
open Lib Lib.Str

/-- The documented patterns: at most one `*`, and no param right after it. -/
structure Grammatical (segs : List String) : Prop where
  oneWildcard : segs.count "*" ≤ 1
  noParamNext : segs.IsChain fun a b => a = "*" → startsWith b ':' = false

/-- A documented pattern has no `*` right after another. -/
theorem follows_of_grammatical : ∀ {segs : List String}, Grammatical segs → segs.IsChain Follows
  | [], _ => .nil
  | [x], _ => .singleton x
  | x :: y :: segs, h => by
    obtain ⟨hxy, hrest⟩ := List.isChain_cons_cons.mp h.noParamNext
    rw [List.isChain_cons_cons]
    refine ⟨?_, follows_of_grammatical ⟨?_, hrest⟩⟩
    · intro hx
      refine ⟨?_, hxy hx⟩
      intro hy
      have hcount := h.oneWildcard
      rw [hx, hy, List.count_cons_self, List.count_cons_self] at hcount
      omega
    · have hcount := h.oneWildcard
      rw [List.count_cons] at hcount
      omega

theorem new_eq_ok_iff_follows {s : String} (hs : startsWith s '/' = true) :
    (∃ p, Path.new s = .ok p) ↔ (segments s '/').IsChain Follows := by
  rw [← pathSegments_of_startsWith hs]
  constructor
  · intro ⟨p, hp⟩
    exact (new_eq_ok.mp hp).1
  · intro h
    exact ⟨_, new_of_isChain h⟩

/-- **The parser accepts more than one wildcard.** It accepts exactly the documented
    patterns on the texts that have at most one `*` among their segments, or a `*`
    right before another or before a param. -/
theorem new_accepts_iff {s : String} (hs : startsWith s '/' = true) :
    ((∃ p, Path.new s = .ok p) ↔ Grammatical (segments s '/')) ↔
      (segments s '/').count "*" ≤ 1 ∨ ¬(segments s '/').IsChain Follows := by
  rw [new_eq_ok_iff_follows hs]
  constructor
  · intro h
    by_cases hch : (segments s '/').IsChain Follows
    · exact .inl (h.mp hch).oneWildcard
    · exact .inr hch
  · intro h
    refine ⟨fun hch => ⟨h.resolve_right (not_not_intro hch), ?_⟩, follows_of_grammatical⟩
    exact hch.imp fun a b hab ha => (hab ha).2

/-- One `*` and a param further on: `/*/a/:b` is documented, and accepted. -/
theorem new_accepts_iff_single : ∃ p, Path.new "/*/a/:b" = .ok p :=
  ((@new_accepts_iff "/*/a/:b" (by decide)).mpr (.inl (by decide))).mpr ⟨by decide, by decide⟩

/-- `/*/a/*` is accepted, with its two wildcards. -/
theorem new_accepts_two_wildcards :
    Path.new "/*/a/*" = .ok ⟨[.leader, .wildcard, .pathComponent "a", .wildcard]⟩ ∧
      ¬Grammatical (segments "/*/a/*" '/') :=
  ⟨by decide, fun h => absurd h.oneWildcard (by decide)⟩

/-! The invariant of parsed paths. -/

/-- What every parsed path satisfies. -/
structure Parsed (p : Path) : Prop where
  leader : ∃ q, p.parts = .leader :: q ∧ .leader ∉ q
  component : ∀ l, .pathComponent l ∈ p.parts →
    l ≠ "" ∧ '/' ∉ l.toList ∧ startsWith l ':' = false ∧ l ≠ "*"
  param : ∀ n, .param n ∈ p.parts → '/' ∉ n.toList ∧ startsWith n ':' = false
  wildcard : p.parts.IsChain fun a b => a = .wildcard → b ≠ .wildcard ∧ ∀ n, b ≠ .param n

/-- The parts that segments become. -/
theorem mem_classify {a : RoutePart} {segs : List String} (h : a ∈ .leader :: segs.map classify)
    (ha : a ≠ .leader) : ∃ x ∈ segs, classify x = a :=
  List.mem_map.mp ((List.mem_cons.mp h).resolve_left ha)

theorem parsed_of_new {s : String} {p : Path} (hp : Path.new s = .ok p) : Parsed p := by
  obtain ⟨hch, rfl⟩ := new_eq_ok.mp hp
  refine ⟨⟨_, rfl, leader_not_mem_classify _⟩, fun l hl => ?_, fun n hn => ?_, ?_⟩
  · obtain ⟨x, hx, hxl⟩ := mem_classify hl (by simp)
    obtain ⟨rfl, hstar, hcolon⟩ := classify_eq_pathComponent.mp hxl
    obtain ⟨hne, hslash⟩ := mem_pathSegments hx
    exact ⟨hne, hslash, hcolon, hstar⟩
  · obtain ⟨x, hx, hxn⟩ := mem_classify hn (by simp)
    obtain ⟨-, rfl⟩ := classify_eq_param.mp hxn
    exact ⟨fun h => (mem_pathSegments hx).2 (mem_trimStartMatches h), startsWith_trimStartMatches x ':'⟩
  · rw [List.isChain_cons]
    refine ⟨fun b _ h => (by cases h), ?_⟩
    rw [List.isChain_map]
    apply hch.imp
    intro a b hab ha
    -- the segment after a `*` is a literal
    obtain ⟨hb, hcolon⟩ := hab (classify_eq_wildcard.mp ha)
    rw [classify_eq_pathComponent.mpr ⟨rfl, hb, hcolon⟩]
    exact ⟨by simp, by simp⟩

/-- Extraction has no errors but its two. -/
theorem extract_ne_err {s provided : String} {p : Path} {e : ServerError} (hp : Path.new s = .ok p)
    (hmatch : e ≠ ⟨"route does not match"⟩) (hlay : e ≠ ⟨"invalid path for parameter extraction"⟩) :
    p.extract provided ≠ .err e := by
  intro h
  rcases extract_eq_err hp h with he | he
  · exact hmatch he
  · exact hlay he

/-- **Parsed paths satisfy the invariant, and extraction's impossible errors are
    impossible.** For every text that the parser accepts, and for every request. -/
theorem new_parsed {s : String} {p : Path} (hp : Path.new s = .ok p) : Parsed p ∧
    ∀ provided, p.extract provided ≠ .err ⟨"params may not immediately follow wildcards due to ambiguity"⟩ ∧
      p.extract provided ≠ .err ⟨"Leaders may not follow wildcards. How'd you get here? :)"⟩ :=
  ⟨parsed_of_new hp, fun _ => ⟨extract_ne_err hp (by decide) (by decide),
    extract_ne_err hp (by decide) (by decide)⟩⟩

/-- What becomes of `//a/*/b/::n/`. -/
theorem new_parsed_mixed :
    Parsed ⟨[.leader, .pathComponent "a", .wildcard, .pathComponent "b", .param "n"]⟩ :=
  (@new_parsed "//a/*/b/::n/" _ (by decide)).1

end DavisJr
