import DavisJr.Capture

/- Which keys extraction binds. A part binds its key when the request goes on at it: the
   segments before fill the parts before it, and one more is left (`Reaches`). The walk
   binds these keys and no others (`mem_of_lay`). Since the comparison lets in requests
   that end before the parts do, a handler finds all its params only where every key is
   reached (`extract_keys_iff`). -/
namespace DavisJr
open Lib Lib.Str Lib.Glob Lib.Table

/-- The key of the params under which a part puts what it takes. -/
def RoutePart.key? : RoutePart → Option String
  | .param n => some n
  | .wildcard => some "*"
  | .pathComponent _ => none
  | .leader => none

/-- The request goes on at a part with this key: the segments before `x` fill the parts
    before that part. -/
def Reaches (q : List RoutePart) (xs : List String) (key : String) : Prop :=
  ∃ done r rest ys x zs, q = done ++ r :: rest ∧ r.key? = some key ∧ xs = ys ++ x :: zs ∧ Fills done ys

section Reaches
variable {q : List RoutePart} {xs mid : List String} {a : RoutePart} {l n w x key : String}

theorem not_reaches_nil : ¬Reaches q [] key := by
  intro ⟨_, _, _, ys, x, zs, _, _, h, _⟩
  simp at h

/-- The first part is reached by any segment. -/
theorem reaches_head (h : a.key? = some key) : Reaches (a :: q) (x :: xs) key :=
  ⟨[], a, q, [], x, xs, rfl, h, rfl, .nil⟩

/-- A key is that of the first part, or of one that is reached past the first. -/
theorem reaches_cons (h : Reaches (a :: q) xs key) : a.key? = some key ∨
    ∃ done r rest ys x zs, q = done ++ r :: rest ∧ r.key? = some key ∧ xs = ys ++ x :: zs ∧
      Fills (a :: done) ys := by
  obtain ⟨done, r, rest, ys, x, zs, hq, hr, hxs, hf⟩ := h
  cases done with
  | nil =>
    obtain ⟨rfl, rfl⟩ := List.cons.inj hq
    exact .inl hr
  | cons b done =>
    obtain ⟨rfl, hq'⟩ := List.cons.inj hq
    exact .inr ⟨done, r, rest, ys, x, zs, hq', hr, hxs, hf⟩

theorem reaches_singleton : Reaches [a] (x :: xs) key ↔ a.key? = some key := by
  constructor
  · intro h
    rcases reaches_cons h with h | ⟨done, r, rest, _, _, _, hq, _⟩
    · exact h
    · simp at hq
  · exact reaches_head

theorem reaches_param : Reaches (.param n :: q) (x :: xs) key ↔ n = key ∨ Reaches q xs key := by
  constructor
  · intro h
    rcases reaches_cons h with h | ⟨done, r, rest, _, y, zs, hq, hr, hxs, hf⟩
    · exact .inl (Option.some.inj h)
    · cases hf with
      | @param _ _ _ ys hf =>
        obtain ⟨-, hxs⟩ := List.cons.inj hxs
        exact .inr ⟨done, r, rest, ys, y, zs, hq, hr, hxs, hf⟩
  · intro h
    rcases h with h | ⟨done, r, rest, ys, y, zs, rfl, hr, rfl, hf⟩
    · exact reaches_head (congrArg some h)
    · exact ⟨.param n :: done, r, rest, x :: ys, y, zs, rfl, hr, rfl, .param hf⟩

theorem reaches_literal : Reaches (.pathComponent l :: q) (l :: xs) key ↔ Reaches q xs key := by
  constructor
  · intro h
    rcases reaches_cons h with h | ⟨done, r, rest, _, y, zs, hq, hr, hxs, hf⟩
    · cases h
    · cases hf with
      | @literal _ _ ys hf =>
        obtain ⟨-, hxs⟩ := List.cons.inj hxs
        exact ⟨done, r, rest, ys, y, zs, hq, hr, hxs, hf⟩
  · intro ⟨done, r, rest, ys, y, zs, hq, hr, hxs, hf⟩
    exact ⟨.pathComponent l :: done, r, rest, l :: ys, y, zs, by rw [hq]; rfl, hr, by rw [hxs]; rfl, .literal hf⟩

/-- Past a wildcard: its literal comes first in what is left, so it is left there. -/
theorem reaches_leave (hmid : l ∉ mid) :
    Reaches (.wildcard :: .pathComponent l :: q) (w :: (mid ++ l :: xs)) key ↔ "*" = key ∨ Reaches q xs key := by
  constructor
  · intro h
    rcases reaches_cons h with h | ⟨_, r, rest, _, y, zs, hq, hr, hxs, hf⟩
    · exact .inl (Option.some.inj h)
    · cases hf with
      | @wildcard _ _ mid' done ys hmid' hf =>
        obtain ⟨⟨⟩, hq'⟩ := List.cons.inj hq
        have hcut : mid ++ l :: xs = mid' ++ l :: (ys ++ y :: zs) := by simpa using (List.cons.inj hxs).2
        have hxs := congrArg (after l) hcut
        rw [after_append hmid, after_append hmid'] at hxs
        exact .inr ⟨done, r, rest, ys, y, zs, hq', hr, hxs, hf⟩
  · intro h
    rcases h with h | ⟨done, r, rest, ys, y, zs, rfl, hr, rfl, hf⟩
    · exact reaches_head (congrArg some h)
    · exact ⟨.wildcard :: .pathComponent l :: done, r, rest, w :: (mid ++ l :: ys), y, zs, rfl, hr,
        by simp, .wildcard hmid hf⟩

/-- Inside a wildcard that the request does not leave, nothing after it is reached. -/
theorem reaches_inside (hmid : l ∉ mid) :
    Reaches (.wildcard :: .pathComponent l :: q) (w :: mid) key ↔ "*" = key := by
  constructor
  · intro h
    rcases reaches_cons h with h | ⟨_, r, rest, _, y, zs, hq, hr, hxs, hf⟩
    · exact Option.some.inj h
    · cases hf with
      | wildcard _ _ =>
        obtain ⟨⟨⟩, -⟩ := List.cons.inj hq
        rw [(List.cons.inj hxs).2] at hmid
        simp at hmid
  · exact fun h => reaches_head (congrArg some h)

/-- A part that stays under the cursor binds its key again. -/
theorem reaches_advance : a.key? = some key ∨ Reaches (advance a q) xs key ↔
    a.key? = some key ∨ Reaches q xs key := by
  unfold advance
  split
  · next hq =>
    subst hq
    cases xs with
    | nil => simp only [not_reaches_nil]
    | cons x xs =>
      rw [reaches_singleton, or_self]
      refine (or_iff_left ?_).symm
      intro ⟨done, r, rest, _, _, _, hq, _⟩
      simp at hq
  · rfl

end Reaches

/-- The keys after a walk: those from before, and those of the parts that it reaches. -/
theorem mem_of_lay {q : List RoutePart} {xs v : List String} {m m' : Params} {key : String}
    (hq : Walkable q) (h : lay q xs m v = .ok m') : key ∈ m' ↔ key ∈ m ∨ Reaches q xs key := by
  fun_induction lay q xs m v with
  | case1 q m v =>
    cases h
    simp only [not_reaches_nil, or_false]
  | case2 => cases h
  | case3 n q x xs m v ih =>
    have hadv := @reaches_advance q xs (.param n) key
    simp only [RoutePart.key?, Option.some.injEq] at hadv
    rw [ih hq.advance h, reaches_param, ← hadv, mem_insert_iff, or_left_comm, or_assoc]
  | case4 q l xs m v ih =>
    have hadv := @reaches_advance q xs (.pathComponent l) key
    simp only [RoutePart.key?, reduceCtorEq, false_or] at hadv
    rw [ih hq.advance h, reaches_literal, hadv]
  | case5 => cases h
  | case6 => exact absurd List.mem_cons_self hq.noLeader
  | case7 l q x xs m v hl ih =>
    have hreach := @reaches_leave q (after l xs) (before l xs) l x key (not_mem_before l xs)
    rw [← eq_before_append_after hl] at hreach
    rw [ih hq.tail.tail h, hreach, mem_insert_iff, or_left_comm, or_assoc]
  | case8 l q x xs m v hl =>
    cases h
    rw [reaches_inside hl, mem_insert_iff, or_comm]
  | case9 q x xs m v hlit =>
    cases h
    obtain rfl := hq.spaced.eq_nil hlit
    rw [reaches_singleton, mem_insert_iff, or_comm, RoutePart.key?, Option.some.injEq]

/-- The keys that extraction binds. -/
theorem mem_of_extract {pat s key : String} {p : Path} {m : Params} (hp : Path.new pat = .ok p)
    (h : p.extract s = .ok m) : key ∈ m ↔ Reaches p.body (rawSegments s '/') key := by
  have hm := ((extract_eq_ok hp s).mp ⟨m, h⟩).1
  obtain ⟨P, rfl, -⟩ := exists_pattern hp
  have hbody : P.path.body = P.body := rfl
  rw [extract_of_matches hm] at h
  rw [mem_of_lay P.walkable h, hbody]
  exact or_iff_right Std.ExtTreeMap.not_mem_empty

/-- **A handler finds its params only where the request is long enough.** For every
    accepted pattern and every request: whatever extraction returns has the key `*` and
    the name of every param exactly when a request that the comparison admits and that
    can be laid along the pattern goes on at a part for each of these keys. -/
theorem extract_keys_iff {pat s : String} {p : Path} (hp : Path.new pat = .ok p) :
    (∀ m, p.extract s = .ok m → "*" ∈ m ∧ ∀ n ∈ p.params, n ∈ m) ↔
    (Admits (pathSegments pat) (pathSegments s) ∧ Laid p.body (rawSegments s '/') →
      Reaches p.body (rawSegments s '/') "*" ∧ ∀ n ∈ p.params, Reaches p.body (rawSegments s '/') n) := by
  rw [← matches_eq_true hp, ← extract_eq_ok hp]
  constructor
  · intro h ⟨m, hm⟩
    simpa only [mem_of_extract hp hm] using h m hm
  · intro h m hm
    simpa only [mem_of_extract hp hm] using h ⟨m, hm⟩

/-- `/x/item/y` goes on at both parts of `/*/item/:item` that bind. -/
theorem extract_keys_iff_long_enough : ∃ m,
    Path.extract ⟨[.leader, .wildcard, .pathComponent "item", .param "item"]⟩ "/x/item/y" = .ok m ∧
      "*" ∈ m ∧ "item" ∈ m := by
  have hraw : rawSegments "/x/item/y" '/' = ["x", "item", "y"] := by decide
  have hfill := @Fills.wildcard "item" "x" [] [] [] (by simp) .nil
  have h := (@extract_keys_iff "/*/item/:item" "/x/item/y"
    ⟨[.leader, .wildcard, .pathComponent "item", .param "item"]⟩ (by decide)).mpr fun _ => by
      rw [hraw]
      refine ⟨reaches_head rfl, fun n hn => ?_⟩
      obtain rfl : n = "item" := by simpa [Path.params] using hn
      exact ⟨_, .param "item", [], _, "y", [], rfl, rfl, rfl, hfill⟩
  have hm : Path.extract ⟨[.leader, .wildcard, .pathComponent "item", .param "item"]⟩ "/x/item/y" =
      .ok ((∅ : Params).insertMany [("*", "x"), ("item", "y")]) := by decide
  exact ⟨_, hm, (h _ hm).1, (h _ hm).2 "item" (by decide)⟩

/-- `/x` ends inside the wildcard of `/*/item/:item`, and `/` before that of `/wildcard/*`. -/
theorem extract_misses_keys :
    (Path.new "/*/item/:item" = .ok ⟨[.leader, .wildcard, .pathComponent "item", .param "item"]⟩ ∧
      Path.params ⟨[.leader, .wildcard, .pathComponent "item", .param "item"]⟩ = ["item"] ∧
      Path.extract ⟨[.leader, .wildcard, .pathComponent "item", .param "item"]⟩ "/x" =
        .ok ((∅ : Params).insert "*" "x") ∧ "item" ∉ (∅ : Params).insert "*" "x") ∧
    Path.new "/wildcard/*" = .ok ⟨[.leader, .pathComponent "wildcard", .wildcard]⟩ ∧
      Path.extract ⟨[.leader, .pathComponent "wildcard", .wildcard]⟩ "/" = .ok ∅ ∧ "*" ∉ (∅ : Params) := by
  decide

end DavisJr
