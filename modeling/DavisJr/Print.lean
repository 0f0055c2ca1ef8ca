import DavisJr.Parse

/- Printed paths. A printed path is a leading slash and the texts of its parts, so
   printing the path that a pattern makes gives the pattern's segments again, each in
   the form that the parser has left of it (`canonical`), and parsing that text makes
   the same path. Different paths have different texts, which is why their order, the
   order of the texts, calls only identical paths equal (`toString_new`). -/
namespace DavisJr
open Lib Lib.Str

/-- A segment as it is printed: a run of leading `:` becomes one. -/
def canonical (seg : String) : String :=
  if startsWith seg ':' then ":" ++ trimStartMatches seg ':' else seg

section Canonical
variable {seg : String}

theorem startsWith_colon_append (n : String) : startsWith (":" ++ n) ':' = true := by
  simp [startsWith]

theorem trimStartMatches_colon_append {n : String} (h : startsWith n ':' = false) :
    trimStartMatches (":" ++ n) ':' = n := by
  have htoList : (":" ++ n).toList = ':' :: n.toList := by simp
  have hdrop : n.toList.dropWhile (· == ':') = n.toList := by
    rw [List.dropWhile_eq_self_iff]
    intro hl hc
    rw [startsWith, List.head?_eq_some_head (List.ne_nil_of_length_pos hl), ← List.getElem_zero hl] at h
    simp_all
  rw [trimStartMatches, htoList, List.dropWhile_cons_of_pos (by simp), hdrop, String.ofList_toList]

/-- The parser reads a printed segment as it read the segment. -/
theorem classify_canonical (seg : String) : classify (canonical seg) = classify seg := by
  unfold canonical
  split
  · next hc =>
    rw [classify_eq_param.mpr ⟨hc, rfl⟩, classify_eq_param]
    exact ⟨startsWith_colon_append _, trimStartMatches_colon_append (startsWith_trimStartMatches seg ':')⟩
  · rfl

theorem partText_classify (seg : String) : Path.partText (classify seg) = canonical seg := by
  unfold canonical
  split
  · next hc => rw [classify_eq_param.mpr ⟨hc, rfl⟩, Path.partText]
  · next hc =>
    by_cases hs : seg = "*"
    · rw [classify_eq_wildcard.mpr hs, hs, Path.partText]
    · rw [classify_eq_pathComponent.mpr ⟨rfl, hs, by simpa using hc⟩, Path.partText]

/-- A printed segment is a field, as the segment was. -/
theorem isField_canonical (h : IsField '/' seg) : IsField '/' (canonical seg) := by
  unfold canonical
  split
  · refine ⟨by simp [← String.toList_inj], ?_⟩
    rw [String.toList_append, List.mem_append, not_or]
    exact ⟨by decide, fun hs => h.2 (mem_trimStartMatches hs)⟩
  · exact h

/-- What may follow is a matter of the parts. -/
theorem follows_iff_classify {a b : String} :
    Follows a b ↔ (classify a = .wildcard → ∃ l, classify b = .pathComponent l) := by
  rw [Follows, classify_eq_wildcard]
  simp only [classify_eq_pathComponent, ↓existsAndEq, true_and]

theorem isChain_canonical {segs : List String} (h : segs.IsChain Follows) :
    (segs.map canonical).IsChain Follows := by
  rw [List.isChain_map]
  apply h.imp
  intro a b hab
  rw [follows_iff_classify] at hab ⊢
  rwa [classify_canonical, classify_canonical]

end Canonical

section Print
variable {s t : String} {p q : Path}

/-- A printed path: a slash, and the printed segments with slashes between them. -/
theorem toString_eq_slashed (hp : Path.new s = .ok p) :
    p.toString = slashed ((pathSegments s).map canonical) '/' 0 := by
  obtain ⟨-, rfl⟩ := new_eq_ok.mp hp
  have htext : Path.partText ∘ classify = canonical := funext partText_classify
  unfold Path.toString
  rw [List.map_cons, List.map_map, htext]
  cases (pathSegments s).map canonical with
  | nil => rfl
  | cons x xs =>
    show join ("" :: x :: xs) "/" = _
    rw [← String.toList_inj, toList_slashed]
    simp [join]

/-- The parser reads the printed path as it read the path. -/
theorem new_printed (hp : Path.new s = .ok p) : Path.new p.toString = .ok p := by
  have hprint := toString_eq_slashed hp
  obtain ⟨hch, rfl⟩ := new_eq_ok.mp hp
  have hseg : pathSegments (slashed ((pathSegments s).map canonical) '/' 0) = (pathSegments s).map canonical := by
    rw [pathSegments_of_startsWith (startsWith_slashed _ _ _), segments_slashed]
    rw [List.forall_mem_map]
    exact fun x hx => isField_canonical (mem_pathSegments hx)
  have hread : classify ∘ canonical = classify := funext classify_canonical
  rw [hprint, new_eq_ok, hseg, List.map_map, hread]
  exact ⟨isChain_canonical hch, rfl⟩

/-- Two parsed paths have the same text only if they are the same. -/
theorem toString_inj (hp : Path.new s = .ok p) (hq : Path.new t = .ok q) :
    p.toString = q.toString ↔ p = q := by
  constructor
  · intro h
    have hpq := new_printed hp
    rw [h, new_printed hq] at hpq
    exact (Except.ok.inj hpq).symm
  · exact congrArg Path.toString

theorem cmp_eq_iff (hp : Path.new s = .ok p) (hq : Path.new t = .ok q) : p.cmp q = .eq ↔ p = q := by
  rw [Path.cmp, Std.compare_eq_iff_eq, toString_inj hp hq]

end Print

/-- **Printing is canonical and parses back.** The path that an accepted text makes is
    printed as `/` when the text has no segments, and otherwise as its segments, each
    after a slash and with a run of leading `:` cut to one; parsing that gives the same
    path. So two parsed paths are equal in the order exactly when their parts are. -/
theorem toString_new {s : String} {p : Path} (hp : Path.new s = .ok p) :
    (startsWith s '/' = true → p.toString = if segments s '/' = [] then "/"
      else String.join ((segments s '/').map fun x => "/" ++ canonical x)) ∧
    (∃ p', Path.new p.toString = .ok p' ∧ p'.parts = p.parts) ∧
    ∀ (t : String) (q : Path), Path.new t = .ok q → (p.cmp q = .eq ↔ p.parts = q.parts) := by
  refine ⟨fun hs => ?_, ⟨p, new_printed hp, rfl⟩, fun t q hq => ?_⟩
  · rw [toString_eq_slashed hp, pathSegments_of_startsWith hs]
    split
    · next hnil => rw [hnil]; rfl
    · next hne => rw [slashed_eq_join _ (by simpa using hne), List.map_map]; rfl
  · rw [cmp_eq_iff hp hq]
    exact ⟨congrArg Path.parts, fun h => congrArg Path.mk h⟩

/-- `//a/::n//*` is printed as `/a/:n/*`. -/
theorem toString_new_colons :
    Path.toString ⟨[.leader, .pathComponent "a", .param "n", .wildcard]⟩ = "/a/:n/*" := by
  have h := (@toString_new "//a/::n//*" ⟨[.leader, .pathComponent "a", .param "n", .wildcard]⟩
    (by decide)).1 (by decide)
  exact h.trans (by decide)

end DavisJr
