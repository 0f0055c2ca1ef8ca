import DavisJr.Match

/- The cursor of the comparison. For a pattern with a wildcard the lengths of the two
   part lists are not compared, and the loop runs over the other list; what keeps
   the index in range is that the cursor never passes a wildcard (`EqInv`). One
   iteration keeps this (`EqInv.step`), so the comparison comes to a result for any
   two part lists, parsed or not (`eq_index_in_range`). -/
namespace DavisJr
open Lib Lib.Str Lib.Glob

/-- The comparison of `self` with the parts `args` comes to `rest` in the state `st`. -/
inductive EqReaches (self : Path) (args : List RoutePart) : Path.EqState → List RoutePart → Prop
  | start : EqReaches self args ⟨0, false, false⟩ args
  | step {st st' arg rest} : EqReaches self args st (arg :: rest) →
      (self.eqArm st arg : Outcome Empty _) = .ok (true, st') →
      EqReaches self args (if !st'.wildcard then { st' with i := st'.i + 1 } else st') rest

/-- What keeps the cursor in range: inside a wildcard it stands on one; outside there is
    a wildcard ahead, or at least as many parts as the other path has left. -/
structure EqInv (p : Path) (st : Path.EqState) (rest : List RoutePart) : Prop where
  inside : st.wildcard = true → ∃ q, p.parts.drop st.i = .wildcard :: q
  outside : st.wildcard = false →
    .wildcard ∈ p.parts.drop st.i ∨ rest.length ≤ (p.parts.drop st.i).length

section Cursor
variable {self : Path} {st : Path.EqState} {arg : RoutePart} {args rest : List RoutePart}

theorem EqInv.exists_drop (h : EqInv self st (arg :: rest)) : ∃ a q, self.parts.drop st.i = a :: q := by
  apply List.exists_cons_of_ne_nil
  intro hnil
  cases hw : st.wildcard with
  | true =>
    obtain ⟨q, hq⟩ := h.inside hw
    rw [hnil] at hq
    cases hq
  | false =>
    have hout := h.outside hw
    rw [hnil] at hout
    simp at hout

theorem EqInv.lt_length (h : EqInv self st (arg :: rest)) : st.i < self.parts.length := by
  obtain ⟨a, q, hdrop⟩ := h.exists_drop
  exact Outcome.lt_length_of_drop hdrop

/-- Outside a wildcard an iteration leaves the cursor to the loop's end, and sets the flag
    exactly when it stands on a wildcard. -/
theorem eqArm_outside {ε : Type} {i : Nat} {a : RoutePart} {q : List RoutePart} (seen : Bool)
    (h : self.parts.drop i = a :: q) (arg : RoutePart) : ∃ b seen',
    (self.eqArm ⟨i, seen, false⟩ arg : Outcome ε _) = .ok (b, ⟨i, seen', decide (a = .wildcard)⟩) := by
  cases a with
  | pathComponent l => exact ⟨_, seen, by simp only [Path.eqArm, Outcome.index_of_drop h, Outcome.ok_bind]; rfl⟩
  | wildcard => exact ⟨true, seen, by simp [Path.eqArm, Outcome.index_of_drop h]⟩
  | param n => exact ⟨true, seen, by simp [Path.eqArm, Outcome.index_of_drop h]⟩
  | leader => exact ⟨!seen, true, by cases seen <;> simp [Path.eqArm, Outcome.index_of_drop h]⟩

/-- One iteration: it does not panic, and the invariant holds after it. -/
theorem EqInv.step {ε : Type} (h : EqInv self st (arg :: rest)) : ∃ b st',
    (self.eqArm st arg : Outcome ε _) = .ok (b, st') ∧
      EqInv self (if !st'.wildcard then { st' with i := st'.i + 1 } else st') rest := by
  obtain ⟨i, seen, w⟩ := st
  cases w with
  | true =>
    obtain ⟨q, hq⟩ := h.inside rfl
    exact ⟨true, ⟨i, seen, true⟩, eqArm_inside hq arg, fun _ => ⟨q, hq⟩, fun hw => by cases hw⟩
  | false =>
    obtain ⟨a, q, hdrop⟩ := h.exists_drop
    obtain ⟨b, seen', harm⟩ := eqArm_outside (ε := ε) seen hdrop arg
    refine ⟨b, _, harm, ?_⟩
    by_cases ha : a = .wildcard
    · subst ha
      exact ⟨fun _ => ⟨q, hdrop⟩, fun hw => by simp at hw⟩
    · have hout := h.outside rfl
      rw [hdrop] at hout
      simp only [ha, decide_false, Bool.not_false, if_true]
      refine ⟨fun hw => (by cases hw), fun _ => ?_⟩
      show .wildcard ∈ self.parts.drop (i + 1) ∨ rest.length ≤ (self.parts.drop (i + 1)).length
      rw [Outcome.drop_succ_of_drop hdrop]
      rcases hout with hmem | hlen
      · exact .inl ((List.mem_cons.mp hmem).resolve_left (Ne.symm ha))
      · exact .inr (by simpa using hlen)

/-- The loop comes to an end from every state of the invariant. -/
theorem EqInv.eqLoop {ε : Type} : ∀ {rest : List RoutePart} {st : Path.EqState}, EqInv self st rest →
    ∃ b, (self.eqLoop st rest : Outcome ε Bool) = .ok b
  | [], _, _ => ⟨true, rfl⟩
  | arg :: rest, st, h => by
    obtain ⟨b, st', harm, hinv⟩ := h.step (ε := ε)
    rw [Path.eqLoop, harm, Outcome.ok_bind]
    cases b with
    | false => exact ⟨false, rfl⟩
    | true => exact hinv.eqLoop

theorem eqInv_start (h : ¬(args.length ≠ self.parts.length ∧ .wildcard ∉ self.parts)) :
    EqInv self ⟨0, false, false⟩ args := by
  refine ⟨fun hw => (by cases hw), fun _ => ?_⟩
  show .wildcard ∈ self.parts ∨ args.length ≤ self.parts.length
  by_cases hw : .wildcard ∈ self.parts
  · exact .inl hw
  · exact .inr (Nat.le_of_eq (by_contra fun hne => h ⟨hne, hw⟩))

theorem EqReaches.inv (hstart : EqInv self ⟨0, false, false⟩ args) (h : EqReaches self args st rest) :
    EqInv self st rest := by
  induction h with
  | start => exact hstart
  | step _ harm ih =>
    obtain ⟨b, st', harm', hinv⟩ := ih.step (ε := Empty)
    rw [harm] at harm'
    cases harm'
    exact hinv

end Cursor

/-- **The comparison never reads out of range.** The comparison of any two paths comes to
    a result; and wherever its loop goes once the lengths have been compared, the index
    is in range, and so is the one after it where the look-ahead would read it. -/
theorem eq_index_in_range {ε : Type} (self other : Path) :
    (∃ b, (self.eq other : Outcome ε Bool) = .ok b) ∧
      (¬(other.parts.length ≠ self.parts.length ∧ .wildcard ∉ self.parts) →
        ∀ st arg rest, EqReaches self other.parts st (arg :: rest) →
          st.i < self.parts.length ∧
            (self.parts[st.i]? = some .wildcard → st.wildcard = true → self.parts.length < st.i + 1 →
              st.i + 1 < self.parts.length)) := by
  constructor
  · unfold Path.eq
    split
    · exact ⟨false, rfl⟩
    · next h => exact (eqInv_start h).eqLoop
  · intro h st arg rest hreach
    have hlt := (hreach.inv (eqInv_start h)).lt_length
    -- the guard of the look-ahead is false wherever the index is in range
    exact ⟨hlt, fun _ _ hguard => by omega⟩

end DavisJr
