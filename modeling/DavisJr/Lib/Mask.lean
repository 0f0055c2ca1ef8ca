import Mathlib.Data.Set.Finite.List
import DavisJr.Lib.Glob

/- Masks on texts of unbounded length over an unbounded alphabet. A mask fixes the items
   at some positions, leaves the others free, and is closed or open at its end. An open
   mask accepts texts that are shorter than itself too: only the positions that both
   have are looked at. The texts of one mask are never shared out among several
   others: a finite list of masks accepts all of them only if one of the list does
   (`covered_iff`), since a text with an item that none of the list fixes at every free
   position tells which one. -/
namespace Lib
open Glob

/-- The items that a text must have (`none` where any will do), and whether the text may
    go on after them. -/
structure Mask (β : Type) where
  cells : List (Option β)
  isOpen : Bool
  deriving DecidableEq

namespace Mask
variable {β : Type}

/-- The item is one for the cell. -/
def Fits (c : Option β) (x : β) : Prop := c = none ∨ c = some x

/-- The first cell fits what the second does. -/
def Looser (a b : Option β) : Prop := a = none ∨ a = b

/-- Some item fits both cells. -/
def Compatible (a b : Option β) : Prop := a = none ∨ b = none ∨ a = b

instance [DecidableEq β] : DecidableRel (Looser (β := β)) := fun a b =>
  inferInstanceAs (Decidable (a = none ∨ a = b))

instance [DecidableEq β] : DecidableRel (Compatible (β := β)) := fun a b =>
  inferInstanceAs (Decidable (a = none ∨ b = none ∨ a = b))

structure Accepts (p : Mask β) (xs : List β) : Prop where
  agree : AgreeOn Fits p.cells xs
  length : p.isOpen = false → p.cells.length = xs.length

/-- Read off the masks: the first accepts whatever the second does. -/
structure Subsumes (p q : Mask β) : Prop where
  agree : AgreeOn Looser p.cells q.cells
  beyond : q.isOpen = true → ∀ c ∈ p.cells.drop q.cells.length, c = none
  length : p.isOpen = false → q.isOpen = false ∧ p.cells.length = q.cells.length

/-- Read off the masks: some text is accepted by both. -/
structure Overlaps (p q : Mask β) : Prop where
  agree : p.isOpen = false ∨ q.isOpen = false → AgreeOn Compatible p.cells q.cells
  length : p.isOpen = false → q.isOpen = false → p.cells.length = q.cells.length

instance [DecidableEq β] (p q : Mask β) : Decidable (Subsumes p q) :=
  decidable_of_iff (AgreeOn Looser p.cells q.cells ∧
      (q.isOpen = true → ∀ c ∈ p.cells.drop q.cells.length, c = none) ∧
      (p.isOpen = false → q.isOpen = false ∧ p.cells.length = q.cells.length))
    ⟨fun h => ⟨h.1, h.2.1, h.2.2⟩, fun h => ⟨h.agree, h.beyond, h.length⟩⟩

instance [DecidableEq β] (p q : Mask β) : Decidable (Overlaps p q) :=
  decidable_of_iff ((p.isOpen = false ∨ q.isOpen = false → AgreeOn Compatible p.cells q.cells) ∧
      (p.isOpen = false → q.isOpen = false → p.cells.length = q.cells.length))
    ⟨fun h => ⟨h.1, h.2⟩, fun h => ⟨h.agree, h.length⟩⟩

variable {p q : Mask β} {xs : List β} {z : β} {n : Nat}

theorem Fits.looser {a b : Option β} {x : β} (hab : Looser a b) (hb : Fits b x) : Fits a x := by
  rcases hab with ha | rfl
  · exact .inl ha
  · exact hb

theorem Subsumes.accepts (h : Subsumes p q) (hq : q.Accepts xs) : p.Accepts xs := by
  have hfits := agreeOn_iff_getElem?.mp hq.agree
  refine ⟨agreeOn_iff_getElem?.mpr ?_, ?_⟩
  · intro i c x hc hx
    cases hd : q.cells[i]? with
    | some d => exact (hfits i d x hd hx).looser (agreeOn_iff_getElem?.mp h.agree i c d hc hd)
    | none =>
      -- past its cells the second mask is open, as the text goes on
      have hi : q.cells.length ≤ i := List.getElem?_eq_none_iff.mp hd
      have hlt := (List.getElem?_eq_some_iff.mp hx).1
      have hopen : q.isOpen = true := by
        by_contra hclosed
        have := hq.length (by simpa using hclosed)
        omega
      refine .inl (h.beyond hopen c ?_)
      apply List.mem_of_getElem? (i := i - q.cells.length)
      rw [List.getElem?_drop, Nat.add_sub_cancel' hi, hc]
  · intro hp
    obtain ⟨hclosed, hlen⟩ := h.length hp
    exact hlen.trans (hq.length hclosed)

/-! A text that stands for all. -/

/-- The text with `z` at the free positions, and `n` times more if it may go on. -/
def fill (z : β) (n : Nat) (q : Mask β) : List β :=
  q.cells.map (·.getD z) ++ if q.isOpen then List.replicate n z else []

theorem getElem?_fill {i : Nat} {d : Option β} (h : q.cells[i]? = some d) :
    (fill z n q)[i]? = some (d.getD z) := by
  have hlt : i < (q.cells.map (·.getD z)).length := by
    rw [List.length_map]
    exact (List.getElem?_eq_some_iff.mp h).1
  rw [fill, List.getElem?_append_left hlt, List.getElem?_map, h]
  rfl

theorem getElem?_fill_beyond {i : Nat} (hopen : q.isOpen = true) (hi : q.cells.length ≤ i) (hn : i < n) :
    (fill z n q)[i]? = some z := by
  have hle : (q.cells.map (·.getD z)).length ≤ i := by rwa [List.length_map]
  rw [fill, if_pos hopen, List.getElem?_append_right hle, List.getElem?_replicate, if_pos]
  omega

theorem length_fill_of_closed (h : q.isOpen = false) : (fill z n q).length = q.cells.length := by
  simp [fill, h]

theorem length_fill_of_open (h : q.isOpen = true) : (fill z n q).length = q.cells.length + n := by
  simp [fill, h]

theorem fits_getD (c : Option β) (z : β) : Fits c (c.getD z) := by
  cases c with
  | none => exact .inl rfl
  | some y => exact .inr rfl

theorem accepts_fill (z : β) (n : Nat) (q : Mask β) : q.Accepts (fill z n q) := by
  refine ⟨agreeOn_iff_getElem?.mpr ?_, fun h => (length_fill_of_closed h).symm⟩
  intro i c x hc hx
  rw [getElem?_fill hc, Option.some.injEq] at hx
  exact hx ▸ fits_getD c z

/-- A mask that fixes `z` nowhere and accepts the text accepts what the text stands for. -/
theorem subsumes_of_accepts_fill (hz : some z ∉ p.cells) (hn : p.cells.length < n)
    (h : p.Accepts (fill z n q)) : Subsumes p q := by
  have hfits := agreeOn_iff_getElem?.mp h.agree
  have hfree : ∀ c ∈ p.cells, Fits c z → c = none := by
    intro c hc hfit
    rcases hfit with hnone | rfl
    · exact hnone
    · exact absurd hc hz
  refine ⟨agreeOn_iff_getElem?.mpr ?_, ?_, ?_⟩
  · intro i c d hc hd
    have hfit := hfits i c _ hc (getElem?_fill hd)
    cases d with
    | none => exact .inl (hfree c (List.mem_of_getElem? hc) hfit)
    | some y => exact hfit
  · intro hopen c hc
    obtain ⟨j, hj⟩ := List.mem_iff_getElem?.mp hc
    rw [List.getElem?_drop] at hj
    have hlt := (List.getElem?_eq_some_iff.mp hj).1
    apply hfree c (List.mem_of_mem_drop hc)
    exact hfits _ c z hj (getElem?_fill_beyond hopen (Nat.le_add_right _ _) (by omega))
  · intro hp
    have hlen := h.length hp
    by_cases hopen : q.isOpen = true
    · rw [length_fill_of_open hopen] at hlen
      omega
    · have hclosed : q.isOpen = false := by simpa using hopen
      rw [length_fill_of_closed hclosed] at hlen
      exact ⟨hclosed, hlen⟩

theorem mem_fill {V : Set β} (hz : z ∈ V) (hq : ∀ y, some y ∈ q.cells → y ∈ V) :
    ∀ x ∈ fill z n q, x ∈ V := by
  intro x hx
  rw [fill, List.mem_append] at hx
  rcases hx with hx | hx
  · obtain ⟨c, hc, rfl⟩ := List.mem_map.mp hx
    cases c with
    | none => exact hz
    | some y => exact hq y hc
  · split at hx
    · rw [List.eq_of_mem_replicate hx]
      exact hz
    · cases hx

/-- An infinite set has an item that no mask of a list fixes. -/
theorem exists_free {V : Set β} (hV : V.Infinite) (ps : List (Mask β)) :
    ∃ z ∈ V, ∀ p ∈ ps, some z ∉ p.cells := by
  have hfixed : {z | ∃ p ∈ ps, some z ∈ p.cells}.Finite := by
    apply (List.finite_toSet (ps.flatMap fun p => p.cells.filterMap id)).subset
    intro z ⟨p, hp, hz⟩
    show z ∈ ps.flatMap fun p => p.cells.filterMap id
    rw [List.mem_flatMap]
    exact ⟨p, hp, List.mem_filterMap.mpr ⟨some z, hz, rfl⟩⟩
  obtain ⟨z, hz, hfree⟩ := hV.exists_notMem_finite hfixed
  exact ⟨z, hz, fun p hp hmem => hfree ⟨p, hp, hmem⟩⟩

/-- The masks of a list are shorter than some text. -/
theorem exists_longer : ∀ ps : List (Mask β), ∃ n, ∀ p ∈ ps, p.cells.length < n
  | [] => ⟨0, by simp⟩
  | p :: ps => by
    obtain ⟨n, hn⟩ := exists_longer ps
    refine ⟨p.cells.length + 1 + n, fun p' hp' => ?_⟩
    rcases List.mem_cons.mp hp' with rfl | hp'
    · omega
    · have := hn p' hp'
      omega

/-- **No mask is covered piecemeal.** Among the texts `D`, which hold all texts over an
    infinite set `V`, the masks of a finite list accept all that `q` does only if one of
    them subsumes it. -/
theorem covered_iff {V : Set β} {D : List β → Prop} (hV : V.Infinite)
    (hD : ∀ xs, (∀ x ∈ xs, x ∈ V) → D xs) (hq : ∀ y, some y ∈ q.cells → y ∈ V) {ps : List (Mask β)} :
    (∀ xs, D xs → q.Accepts xs → ∃ p ∈ ps, p.Accepts xs) ↔ ∃ p ∈ ps, Subsumes p q := by
  constructor
  · intro h
    obtain ⟨z, hz, hfree⟩ := exists_free hV ps
    obtain ⟨n, hlong⟩ := exists_longer ps
    obtain ⟨p, hp, hacc⟩ := h _ (hD _ (mem_fill hz hq)) (accepts_fill z n q)
    exact ⟨p, hp, subsumes_of_accepts_fill (hfree p hp) (hlong p hp) hacc⟩
  · intro ⟨p, hp, hsub⟩ xs _ hxs
    exact ⟨p, hp, hsub.accepts hxs⟩

/-! Texts that go on. -/

/-- A text that is longer than a mask is accepted by the mask only if it is open. -/
theorem Accepts.isOpen (h : p.Accepts xs) (hlen : p.cells.length < xs.length) : p.isOpen = true := by
  by_contra hclosed
  have := h.length (by simpa using hclosed)
  omega

/-- What comes after its cells does not matter to an open mask. -/
theorem accepts_append_iff {ys : List β} (hopen : p.isOpen = true) (hlen : p.cells.length ≤ xs.length) :
    p.Accepts (xs ++ ys) ↔ p.Accepts xs := by
  have hclosed : ∀ n, p.isOpen = false → p.cells.length = n := fun n h => by rw [hopen] at h; cases h
  have hagree : AgreeOn Fits p.cells (xs ++ ys) ↔ AgreeOn Fits p.cells xs := by
    rw [agreeOn_iff_getElem?, agreeOn_iff_getElem?]
    apply forall_congr'
    intro i
    by_cases hi : i < xs.length
    · rw [List.getElem?_append_left hi]
    · have hnone : p.cells[i]? = none := List.getElem?_eq_none_iff.mpr (by omega)
      simp [hnone]
  exact ⟨fun h => ⟨hagree.mp h.agree, hclosed _⟩, fun h => ⟨hagree.mpr h.agree, hclosed _⟩⟩

/-- The text that stands for all of a mask may go on as the mask allows. -/
theorem accepts_fill_append {ys : List β} (hys : q.isOpen = false → ys = []) : q.Accepts (fill z n q ++ ys) := by
  cases hopen : q.isOpen with
  | false =>
    rw [hys hopen, List.append_nil]
    exact accepts_fill z n q
  | true =>
    have hlen := length_fill_of_open (z := z) (n := n) hopen
    rw [accepts_append_iff hopen (by omega)]
    exact accepts_fill z n q

/-- And it stands for all of the mask's texts however it goes on. -/
theorem subsumes_of_accepts_append {ys : List β} (hys : q.isOpen = false → ys = []) (hz : some z ∉ p.cells)
    (hn : p.cells.length < n) (h : p.Accepts (fill z n q ++ ys)) : Subsumes p q := by
  cases hq : q.isOpen with
  | false =>
    rw [hys hq, List.append_nil] at h
    exact subsumes_of_accepts_fill hz hn h
  | true =>
    have hlen := length_fill_of_open (z := z) (n := n) hq
    have hopen : p.isOpen = true := h.isOpen (by rw [List.length_append]; omega)
    rw [accepts_append_iff hopen (by omega)] at h
    exact subsumes_of_accepts_fill hz hn h

/-! Texts of two masks. -/

/-- A text of the length of the first list of cells that fits both where they are compatible. -/
def merge (z : β) : List (Option β) → List (Option β) → List β
  | [], _ => []
  | c :: cs, [] => c.getD z :: merge z cs []
  | c :: cs, d :: ds => c.getD (d.getD z) :: merge z cs ds

theorem length_merge (z : β) : ∀ cs ds : List (Option β), (merge z cs ds).length = cs.length
  | [], _ => rfl
  | c :: cs, [] => by rw [merge, List.length_cons, length_merge z cs [], List.length_cons]
  | c :: cs, d :: ds => by rw [merge, List.length_cons, length_merge z cs ds, List.length_cons]

theorem agreeOn_merge_left (z : β) : ∀ cs ds : List (Option β), AgreeOn Fits cs (merge z cs ds)
  | [], _ => agreeOn_nil_left _
  | c :: cs, [] => by
    rw [merge, agreeOn_cons]
    exact ⟨fits_getD c z, agreeOn_merge_left z cs []⟩
  | c :: cs, d :: ds => by
    rw [merge, agreeOn_cons]
    exact ⟨fits_getD c _, agreeOn_merge_left z cs ds⟩

theorem agreeOn_merge_right (z : β) : ∀ {cs ds : List (Option β)}, AgreeOn Compatible cs ds →
    AgreeOn Fits ds (merge z cs ds)
  | [], _, _ => agreeOn_nil_right _
  | c :: cs, [], _ => agreeOn_nil_left _
  | c :: cs, d :: ds, h => by
    obtain ⟨hcd, h⟩ := agreeOn_cons.mp h
    rw [merge, agreeOn_cons]
    refine ⟨?_, agreeOn_merge_right z h⟩
    rcases hcd with rfl | rfl | rfl
    · exact fits_getD d z
    · exact .inl rfl
    · exact fits_getD c _

theorem mem_merge {V : Set β} (hz : z ∈ V) : ∀ {cs ds : List (Option β)}, (∀ y, some y ∈ cs → y ∈ V) →
    (∀ y, some y ∈ ds → y ∈ V) → ∀ x ∈ merge z cs ds, x ∈ V
  | [], _, _, _, x, hx => by cases hx
  | c :: cs, [], hcs, hds, x, hx => by
    rcases List.mem_cons.mp hx with rfl | hx
    · cases c with
      | none => exact hz
      | some y => exact hcs y List.mem_cons_self
    · exact mem_merge hz (fun y hy => hcs y (List.mem_cons_of_mem c hy)) hds x hx
  | c :: cs, d :: ds, hcs, hds, x, hx => by
    rcases List.mem_cons.mp hx with rfl | hx
    · cases c with
      | some y => exact hcs y List.mem_cons_self
      | none =>
        cases d with
        | none => exact hz
        | some y => exact hds y List.mem_cons_self
    · exact mem_merge hz (fun y hy => hcs y (List.mem_cons_of_mem c hy))
        (fun y hy => hds y (List.mem_cons_of_mem d hy)) x hx

theorem Compatible.symm {a b : Option β} (h : Compatible a b) : Compatible b a := by
  rcases h with h | h | h
  · exact .inr (.inl h)
  · exact .inl h
  · exact .inr (.inr h.symm)

theorem agreeOn_compatible_symm {cs ds : List (Option β)} (h : AgreeOn Compatible cs ds) :
    AgreeOn Compatible ds cs := by
  rw [agreeOn_iff_getElem?] at h ⊢
  exact fun i c d hc hd => (h i d c hd hc).symm

theorem Overlaps.symm (h : Overlaps p q) : Overlaps q p :=
  ⟨fun hc => agreeOn_compatible_symm (h.agree hc.symm), fun hq hp => (h.length hp hq).symm⟩

/-- A closed mask that overlaps another has a text in common with it. -/
theorem Overlaps.exists_of_closed {V : Set β} (h : Overlaps p q) (hclosed : p.isOpen = false) (hz : z ∈ V)
    (hp : ∀ y, some y ∈ p.cells → y ∈ V) (hq : ∀ y, some y ∈ q.cells → y ∈ V) :
    ∃ xs, (∀ x ∈ xs, x ∈ V) ∧ p.Accepts xs ∧ q.Accepts xs := by
  have hlen := length_merge z p.cells q.cells
  refine ⟨merge z p.cells q.cells, mem_merge hz hp hq, ⟨agreeOn_merge_left z _ _, fun _ => hlen.symm⟩, ?_⟩
  exact ⟨agreeOn_merge_right z (h.agree (.inl hclosed)), fun hqc => (h.length hclosed hqc).symm.trans hlen.symm⟩

/-- The text of one item for each of two masks fits both of its cells. -/
theorem compatible_of_fits {a b : Option β} {x : β} (ha : Fits a x) (hb : Fits b x) : Compatible a b := by
  rcases ha with ha | ha
  · exact .inl ha
  · rcases hb with hb | hb
    · exact .inr (.inl hb)
    · exact .inr (.inr (ha.trans hb.symm))

theorem overlaps_of_accepts (hp : p.Accepts xs) (hq : q.Accepts xs) : Overlaps p q := by
  refine ⟨fun hclosed => agreeOn_iff_getElem?.mpr ?_, fun hpc hqc => (hp.length hpc).trans (hq.length hqc).symm⟩
  intro i c d hc hd
  have hic := (List.getElem?_eq_some_iff.mp hc).1
  have hid := (List.getElem?_eq_some_iff.mp hd).1
  -- the text is as long as the closed one of the masks
  have hi : i < xs.length := by
    rcases hclosed with hpc | hqc
    · have := hp.length hpc
      omega
    · have := hq.length hqc
      omega
  have hx : xs[i]? = some xs[i] := List.getElem?_eq_getElem hi
  exact compatible_of_fits (agreeOn_iff_getElem?.mp hp.agree i c _ hc hx)
    (agreeOn_iff_getElem?.mp hq.agree i d _ hd hx)

/-- Two masks overlap exactly when they have a text of `D` in common. -/
theorem overlaps_iff {V : Set β} {D : List β → Prop} (hV : V.Nonempty)
    (hD : ∀ xs, (∀ x ∈ xs, x ∈ V) → D xs) (hp : ∀ y, some y ∈ p.cells → y ∈ V)
    (hq : ∀ y, some y ∈ q.cells → y ∈ V) :
    (∃ xs, D xs ∧ p.Accepts xs ∧ q.Accepts xs) ↔ Overlaps p q := by
  constructor
  · intro ⟨xs, _, hpx, hqx⟩
    exact overlaps_of_accepts hpx hqx
  · intro h
    obtain ⟨z, hz⟩ := hV
    by_cases hpc : p.isOpen = false
    · obtain ⟨xs, hxs, hpx, hqx⟩ := h.exists_of_closed hpc hz hp hq
      exact ⟨xs, hD xs hxs, hpx, hqx⟩
    · by_cases hqc : q.isOpen = false
      · obtain ⟨xs, hxs, hqx, hpx⟩ := h.symm.exists_of_closed hqc hz hq hp
        exact ⟨xs, hD xs hxs, hpx, hqx⟩
      · -- two open masks accept the empty text
        exact ⟨[], hD [] (by simp), ⟨agreeOn_nil_right _, fun h => absurd h hpc⟩,
          ⟨agreeOn_nil_right _, fun h => absurd h hqc⟩⟩

/-! Texts that a mask has an item of for each of its cells. -/

/-- The mask accepts the text, which goes on past it if it may. -/
structure Full (q : Mask β) (xs : List β) : Prop where
  agree : AgreeOn Fits q.cells xs
  closed : q.isOpen = false → q.cells.length = xs.length
  opened : q.isOpen = true → q.cells.length < xs.length

theorem Full.accepts (h : q.Full xs) : q.Accepts xs := ⟨h.agree, h.closed⟩

theorem Full.length_le (h : q.Full xs) : q.cells.length ≤ xs.length := by
  cases hopen : q.isOpen with
  | false => exact (h.closed hopen).le
  | true => exact (h.opened hopen).le

/-- Read off the masks: the first accepts some full text of the second. -/
structure Meets (p q : Mask β) : Prop where
  agree : AgreeOn Compatible p.cells q.cells
  closed : p.isOpen = false → q.isOpen = false → p.cells.length = q.cells.length
  opened : p.isOpen = false → q.isOpen = true → q.cells.length < p.cells.length

instance [DecidableEq β] (p q : Mask β) : Decidable (Meets p q) :=
  decidable_of_iff (AgreeOn Compatible p.cells q.cells ∧
      (p.isOpen = false → q.isOpen = false → p.cells.length = q.cells.length) ∧
      (p.isOpen = false → q.isOpen = true → q.cells.length < p.cells.length))
    ⟨fun h => ⟨h.1, h.2.1, h.2.2⟩, fun h => ⟨h.agree, h.closed, h.opened⟩⟩

theorem meets_of_full (hp : p.Accepts xs) (hq : q.Full xs) : Meets p q := by
  refine ⟨agreeOn_iff_getElem?.mpr ?_, fun hpc hqc => ?_, fun hpc hqo => ?_⟩
  · intro i c d hc hd
    have hi : i < xs.length := lt_of_lt_of_le (List.getElem?_eq_some_iff.mp hd).1 hq.length_le
    have hx : xs[i]? = some xs[i] := List.getElem?_eq_getElem hi
    exact compatible_of_fits (agreeOn_iff_getElem?.mp hp.agree i c _ hc hx)
      (agreeOn_iff_getElem?.mp hq.agree i d _ hd hx)
  · exact (hp.length hpc).trans (hq.closed hqc).symm
  · exact lt_of_lt_of_eq (hq.opened hqo) (hp.length hpc).symm

/-- Two masks that meet have a text in common that is full for the second. -/
theorem Meets.exists_full {V : Set β} (h : Meets p q) (hz : z ∈ V) (hp : ∀ y, some y ∈ p.cells → y ∈ V)
    (hq : ∀ y, some y ∈ q.cells → y ∈ V) : ∃ xs, (∀ x ∈ xs, x ∈ V) ∧ p.Accepts xs ∧ q.Full xs := by
  have hfull : AgreeOn Fits q.cells (merge z q.cells p.cells) := agreeOn_merge_left z _ _
  have hfits : AgreeOn Fits p.cells (merge z q.cells p.cells) := agreeOn_merge_right z (agreeOn_compatible_symm h.agree)
  have hlength : (merge z q.cells p.cells).length = q.cells.length := length_merge z _ _
  cases hqo : q.isOpen with
  | false =>
    -- a text as long as the second mask
    refine ⟨merge z q.cells p.cells, mem_merge hz hq hp, ⟨hfits, fun hpc => ?_⟩, hfull, fun _ => hlength.symm,
      fun ho => ?_⟩
    · exact (h.closed hpc hqo).trans hlength.symm
    · rw [hqo] at ho
      cases ho
  | true =>
    have hopen : ∀ n, q.isOpen = false → q.cells.length = n := fun n h => by rw [hqo] at h; cases h
    by_cases hlt : q.cells.length < p.cells.length
    · -- one as long as the first, which is longer
      have hxs := length_merge z p.cells q.cells
      refine ⟨merge z p.cells q.cells, mem_merge hz hp hq, ⟨agreeOn_merge_left z _ _, fun _ => hxs.symm⟩, ?_⟩
      exact ⟨agreeOn_merge_right z h.agree, hopen _, fun _ => hxs.symm ▸ hlt⟩
    · -- one item more than the second
      have hpo : p.isOpen = true := by
        by_contra hpc
        exact hlt (h.opened (by simpa using hpc) hqo)
      refine ⟨merge z q.cells p.cells ++ [z], ?_, ?_, ?_, hopen _, fun _ => ?_⟩
      · exact List.forall_mem_append.mpr ⟨mem_merge hz hq hp, List.forall_mem_singleton.mpr hz⟩
      · rw [accepts_append_iff hpo (by omega)]
        exact ⟨hfits, fun hpc => by rw [hpo] at hpc; cases hpc⟩
      · have hacc : q.Accepts (merge z q.cells p.cells) := ⟨hfull, hopen _⟩
        exact ((accepts_append_iff hqo hlength.ge).mpr hacc).agree
      · rw [List.length_append, hlength, List.length_singleton]
        omega

end Mask
end Lib
