import Mathlib.Data.List.Chain
import DavisJr.Path

/- What `Path.new` accepts and what it returns. The parser's flag is the test "the
   previous segment was `*`", so a text is accepted exactly when every segment may
   follow the one before it (`Follows`), and the result is a leader followed by the
   parts its non-empty segments become (`new_eq_ok`). `Pattern` is such a part list
   with the facts that matching and extraction rely on; every path that `Path.new`
   returns is one (`exists_pattern`). -/
namespace DavisJr
open Lib Lib.Str

/-- The part a non-empty segment becomes. -/
def classify (seg : String) : RoutePart :=
  if startsWith seg ':' then .param (trimStartMatches seg ':')
  else if seg = "*" then .wildcard
  else .pathComponent seg

/-- Whether `b` may be the next segment after `a`: only a literal may follow a `*`. -/
def Follows (a b : String) : Prop := a = "*" → b ≠ "*" ∧ startsWith b ':' = false

instance : DecidableRel Follows := fun a b =>
  inferInstanceAs (Decidable (a = "*" → b ≠ "*" ∧ startsWith b ':' = false))

/-- The segments `Path.new` reads: none when the trimmed text has no slash. -/
def pathSegments (s : String) : List String :=
  if contains (trimEndMatches s '/') '/' then segments s '/' else []

/-- A text that starts with a slash is read whole. -/
theorem pathSegments_of_startsWith {s : String} (h : startsWith s '/' = true) :
    pathSegments s = segments s '/' := by
  unfold pathSegments
  split
  · rfl
  · next hc => exact ((contains_trimEndMatches h).mp (by simpa using hc)).symm

theorem mem_pathSegments {s x : String} (h : x ∈ pathSegments s) : x ≠ "" ∧ '/' ∉ x.toList := by
  unfold pathSegments at h
  split at h
  · exact mem_segments h
  · simp at h

theorem classify_eq_wildcard {seg : String} : classify seg = .wildcard ↔ seg = "*" := by
  unfold classify
  constructor
  · intro h
    split at h
    · cases h
    · split at h
      · assumption
      · cases h
  · rintro rfl; decide

theorem classify_eq_param {seg n : String} :
    classify seg = .param n ↔ startsWith seg ':' = true ∧ trimStartMatches seg ':' = n := by
  unfold classify
  split
  · next h => simp [h]
  · next h => split <;> simp [h]

theorem classify_eq_pathComponent {seg l : String} :
    classify seg = .pathComponent l ↔ seg = l ∧ l ≠ "*" ∧ startsWith l ':' = false := by
  unfold classify
  split
  · next h =>
    simp only [reduceCtorEq, false_iff]
    rintro ⟨rfl, -, hl⟩
    rw [h] at hl; cases hl
  · next h =>
    split
    · next hs =>
      simp only [reduceCtorEq, false_iff]
      rintro ⟨rfl, hl, -⟩
      exact hl hs
    · next hs =>
      simp only [RoutePart.pathComponent.injEq]
      constructor
      · rintro rfl; exact ⟨rfl, hs, by simpa using h⟩
      · exact And.left

theorem classify_ne_leader (seg : String) : classify seg ≠ .leader := by
  unfold classify
  split
  · simp
  · split <;> simp

theorem leader_not_mem_classify (segs : List String) : .leader ∉ segs.map classify := by
  intro h
  obtain ⟨x, -, hx⟩ := List.mem_map.mp h
  exact classify_ne_leader x hx

/-! The parser's loop. -/

/-- A segment that may follow adds its part, and the flag becomes the test on it. -/
theorem newStep_of_follows {ps : List RoutePart} {prev seg : String} (hne : seg ≠ "")
    (h : Follows prev seg) : Path.newStep ⟨⟨ps⟩, decide (prev = "*")⟩ seg =
      .ok ⟨⟨ps ++ [classify seg]⟩, decide (seg = "*")⟩ := by
  unfold Path.newStep classify Path.push
  by_cases hc : startsWith seg ':' = true
  · have hp : prev ≠ "*" := by
      rintro rfl
      rw [(h rfl).2] at hc; cases hc
    have hs : seg ≠ "*" := by rintro rfl; revert hc; decide
    simp [hc, hp, hs]
  · by_cases hs : seg = "*"
    · subst hs
      have hp : prev ≠ "*" := fun e => (h e).1 rfl
      simp [hc, hp]
    · simp [hc, hs, hne]

theorem newStep_of_not_follows (ps : List RoutePart) {prev seg : String} (h : ¬Follows prev seg) :
    ∃ e, Path.newStep ⟨⟨ps⟩, decide (prev = "*")⟩ seg = .error e := by
  simp only [Follows, Classical.not_imp, not_and_or, ne_eq, not_not, Bool.not_eq_false] at h
  obtain ⟨rfl, h⟩ := h
  unfold Path.newStep
  by_cases hc : startsWith seg ':' = true
  · rw [if_pos hc, if_pos (by simp)]
    exact ⟨_, rfl⟩
  · rw [if_neg hc, if_pos (h.resolve_right hc), if_pos (by simp)]
    exact ⟨_, rfl⟩

/-- Empty segments leave the loop's state as it is. -/
theorem foldlM_newStep_filter : ∀ (args : List String) (st : Path.NewState),
    args.foldlM Path.newStep st = (args.filter (· ≠ "")).foldlM Path.newStep st
  | [], _ => rfl
  | arg :: args, st => by
    by_cases ha : arg = ""
    · subst ha
      rw [List.filter_cons_of_neg (by simp), ← foldlM_newStep_filter args st]
      rfl
    · rw [List.filter_cons_of_pos (by simpa using ha), List.foldlM_cons, List.foldlM_cons]
      exact congrArg _ (funext fun st' => foldlM_newStep_filter args st')

theorem foldlM_newStep_ok : ∀ (segs : List String) (prev : String) (ps : List RoutePart),
    (∀ x ∈ segs, x ≠ "") → (prev :: segs).IsChain Follows →
    ∃ w, segs.foldlM Path.newStep ⟨⟨ps⟩, decide (prev = "*")⟩ = .ok ⟨⟨ps ++ segs.map classify⟩, w⟩
  | [], prev, ps, _, _ => ⟨_, by simp; rfl⟩
  | seg :: segs, prev, ps, hne, hch => by
    obtain ⟨hf, hch⟩ := List.isChain_cons_cons.mp hch
    obtain ⟨w, hw⟩ := foldlM_newStep_ok segs seg (ps ++ [classify seg])
      (fun x hx => hne x (List.mem_cons_of_mem _ hx)) hch
    refine ⟨w, ?_⟩
    rw [List.foldlM_cons, newStep_of_follows (hne seg (by simp)) hf]
    show segs.foldlM Path.newStep _ = _
    rw [hw, List.map_cons, List.append_assoc]
    rfl

theorem foldlM_newStep_error : ∀ (segs : List String) (prev : String) (ps : List RoutePart),
    (∀ x ∈ segs, x ≠ "") → ¬(prev :: segs).IsChain Follows →
    ∃ e, segs.foldlM Path.newStep ⟨⟨ps⟩, decide (prev = "*")⟩ = .error e
  | [], prev, _, _, hch => absurd (.singleton prev) hch
  | seg :: segs, prev, ps, hne, hch => by
    rw [List.isChain_cons_cons, not_and_or] at hch
    by_cases hf : Follows prev seg
    · obtain ⟨e, he⟩ := foldlM_newStep_error segs seg (ps ++ [classify seg])
        (fun x hx => hne x (List.mem_cons_of_mem _ hx)) (hch.resolve_left (not_not_intro hf))
      refine ⟨e, ?_⟩
      rw [List.foldlM_cons, newStep_of_follows (hne seg (by simp)) hf]
      exact he
    · obtain ⟨e, he⟩ := newStep_of_not_follows ps hf
      exact ⟨e, by rw [List.foldlM_cons, he]; rfl⟩

/-- The loop of `Path.new` over the whole text. -/
theorem new_of_contains {s : String} (h : contains (trimEndMatches s '/') '/' = true) :
    Path.new s = ((segments s '/').foldlM Path.newStep ⟨⟨[.leader]⟩, decide ("" = "*")⟩).map
      Path.NewState.parts := by
  rw [Path.new, if_pos h, foldlM_newStep_filter, ← segments_trimEndMatches, segments]
  rfl

theorem isChain_follows_empty {segs : List String} :
    ("" :: segs).IsChain Follows ↔ segs.IsChain Follows := by
  cases segs with
  | nil => simp
  | cons x xs => simp [List.isChain_cons_cons, Follows]

/-- An accepted text: every segment may follow the one before it. -/
theorem new_of_isChain {s : String} (h : (pathSegments s).IsChain Follows) :
    Path.new s = .ok ⟨.leader :: (pathSegments s).map classify⟩ := by
  by_cases hc : contains (trimEndMatches s '/') '/' = true
  · rw [pathSegments, if_pos hc] at h ⊢
    obtain ⟨w, hw⟩ := foldlM_newStep_ok (segments s '/') "" [.leader]
      (fun x hx => (mem_segments hx).1) (isChain_follows_empty.mpr h)
    rw [new_of_contains hc, hw]
    rfl
  · rw [pathSegments, Path.new, if_neg hc, if_neg hc]
    rfl

theorem new_of_not_isChain {s : String} (h : ¬(pathSegments s).IsChain Follows) :
    ∃ e, Path.new s = .error e := by
  by_cases hc : contains (trimEndMatches s '/') '/' = true
  · rw [pathSegments, if_pos hc] at h
    obtain ⟨e, he⟩ := foldlM_newStep_error (segments s '/') "" [.leader]
      (fun x hx => (mem_segments hx).1) (mt isChain_follows_empty.mp h)
    exact ⟨e, by rw [new_of_contains hc, he]; rfl⟩
  · rw [pathSegments, if_neg hc] at h
    exact absurd .nil h

theorem new_eq_ok {s : String} {p : Path} : Path.new s = .ok p ↔
    (pathSegments s).IsChain Follows ∧ p = ⟨.leader :: (pathSegments s).map classify⟩ := by
  by_cases h : (pathSegments s).IsChain Follows
  · rw [new_of_isChain h]
    simp only [Except.ok.injEq, h, true_and]
    exact eq_comm
  · obtain ⟨e, he⟩ := new_of_not_isChain h
    simp [he, h]

/-! Patterns. -/

/-- A parsed route pattern: the parts after its leader. -/
structure Pattern where
  body : List RoutePart
  noLeader : .leader ∉ body
  /-- A literal is not empty, so no empty segment equals it. -/
  literal : ∀ l, .pathComponent l ∈ body → l ≠ ""
  /-- Only a literal comes right after a wildcard. -/
  spaced : body.IsChain fun a b => a = .wildcard → ∃ l, b = .pathComponent l

def Pattern.path (P : Pattern) : Path := ⟨.leader :: P.body⟩

/-- The pattern that accepted segments make. -/
def Pattern.ofSegments (segs : List String) (hne : ∀ x ∈ segs, x ≠ "") (h : segs.IsChain Follows) :
    Pattern where
  body := segs.map classify
  noLeader := leader_not_mem_classify segs
  literal := by
    intro l hl
    obtain ⟨x, hx, hxl⟩ := List.mem_map.mp hl
    rw [← (classify_eq_pathComponent.mp hxl).1]
    exact hne x hx
  spaced := by
    rw [List.isChain_map]
    refine h.imp fun a b hab ha => ?_
    obtain ⟨hb, hc⟩ := hab (classify_eq_wildcard.mp ha)
    exact ⟨b, classify_eq_pathComponent.mpr ⟨rfl, hb, hc⟩⟩

theorem Pattern.ofSegments_body {segs : List String} {hne : ∀ x ∈ segs, x ≠ ""}
    {h : segs.IsChain Follows} : (Pattern.ofSegments segs hne h).body = segs.map classify := rfl

/-- Every path that `Path.new` returns is a pattern. -/
theorem exists_pattern {s : String} {p : Path} (h : Path.new s = .ok p) :
    ∃ P : Pattern, p = P.path ∧ P.body = (pathSegments s).map classify := by
  obtain ⟨hch, rfl⟩ := new_eq_ok.mp h
  refine ⟨.ofSegments (pathSegments s) (fun x hx => (mem_pathSegments hx).1) hch, ?_, ?_⟩
  · rw [Pattern.path, Pattern.ofSegments_body]
  · rw [Pattern.ofSegments_body]

end DavisJr
