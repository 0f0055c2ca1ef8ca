import DavisJr.Lib.Table
import DavisJr.Verdict

/- What extraction binds. Where the segments stand one to one with parts that are no
   wildcards, the walk inserts their bindings in order (`lay_aligned`), and a param
   that is not ahead any more keeps its value (`lay_frame`). On a wildcard-free
   pattern the comparison counts segments and the walk counts raw segments, so an
   empty one among those before the last part shifts every binding after it; on all
   other requests the bindings are the segments at the params' positions
   (`extract_segments_iff`). -/
namespace DavisJr
open Lib Lib.Str Lib.Glob Lib.Table

/-- A part that is no wildcard takes a segment. -/
inductive Takes : RoutePart → String → Prop
  | param (n x : String) : Takes (.param n) x
  | literal (l : String) : Takes (.pathComponent l) l

/-- The bindings that segments standing one to one with the parts make. -/
def bindings : List RoutePart → List String → List (String × String)
  | .param n :: q, x :: xs => (n, x) :: bindings q xs
  | _ :: q, _ :: xs => bindings q xs
  | _, _ => []

/-- The names of the params among the parts. -/
def names (q : List RoutePart) : List String :=
  q.filterMap fun
    | .param p => some p
    | _ => none

theorem params_path (P : Pattern) : P.path.params = names P.body := rfl

theorem mem_names {n : String} {q : List RoutePart} : n ∈ names q ↔ .param n ∈ q := by
  unfold names
  rw [List.mem_filterMap]
  constructor
  · intro ⟨a, ha, h⟩
    cases a <;> simp only [reduceCtorEq, Option.some.injEq] at h
    subst h
    exact ha
  · exact fun h => ⟨_, h, rfl⟩

section Walk
variable {q q₁ q₂ : List RoutePart} {xs ys : List String} {m m' : Params} {v : List String}

theorem takes_classify {y x : String} (hy : y ≠ "*") (h : SegAgrees y x) : Takes (classify y) x := by
  by_cases hc : startsWith y ':' = true
  · rw [classify_eq_param.mpr ⟨hc, rfl⟩]
    exact .param _ _
  · rw [classify_eq_pathComponent.mpr ⟨rfl, hy, by simpa using hc⟩]
    obtain rfl := h.resolve_left hc
    exact .literal y

/-- Segments that agree with those of a pattern stand one to one with its parts. -/
theorem forall₂_takes {ps : List String} (hps : "*" ∉ ps) (h : List.Forall₂ SegAgrees ps xs) :
    List.Forall₂ Takes (ps.map classify) xs := by
  induction h with
  | nil => exact .nil
  | @cons y x ps xs hyx _ ih =>
    obtain ⟨hy, hps⟩ : y ≠ "*" ∧ "*" ∉ ps := by simpa [eq_comm] using hps
    exact .cons (takes_classify hy hyx) (ih hps)

theorem bindings_append (h : List.Forall₂ Takes q₁ xs) :
    bindings (q₁ ++ q₂) (xs ++ ys) = bindings q₁ xs ++ bindings q₂ ys := by
  induction h with
  | nil => simp [bindings]
  | cons h _ ih => cases h <;> simp [bindings, ih]

theorem bindings_fst (h : List.Forall₂ Takes q xs) : (bindings q xs).map Prod.fst = names q := by
  induction h with
  | nil => rfl
  | cons h _ ih => cases h <;> simpa [bindings, names] using ih

theorem mem_bindings (h : List.Forall₂ Takes q xs) : ∀ {k : Nat} {n : String},
    q[k]? = some (.param n) → ∃ x, xs[k]? = some x ∧ (n, x) ∈ bindings q xs := by
  induction h with
  | nil => exact fun h => absurd h (by simp)
  | @cons a x q xs h hs ih =>
    intro k n hk
    cases k with
    | zero =>
      rw [List.getElem?_cons_zero, Option.some.injEq] at hk
      subst hk
      exact ⟨x, rfl, List.mem_cons_self⟩
    | succ k =>
      obtain ⟨y, hy, hmem⟩ := ih hk
      refine ⟨y, hy, ?_⟩
      cases h with
      | param => exact List.mem_cons_of_mem _ hmem
      | literal => exact hmem

/-- Where parts lie ahead, segments that stand one to one with the parts before them
    insert their bindings. -/
theorem lay_aligned (h : List.Forall₂ Takes q₁ xs) (hq₂ : q₂ ≠ []) (m : Params) :
    lay (q₁ ++ q₂) (xs ++ ys) m v = lay q₂ ys (m.insertMany (bindings q₁ xs)) v := by
  induction h generalizing m with
  | nil => simp [bindings]
  | cons h _ ih =>
    have hne : ∀ q : List RoutePart, q ++ q₂ ≠ [] := by simp [hq₂]
    cases h with
    | param n x =>
      rw [List.cons_append, List.cons_append, lay, advance, if_neg (hne _), bindings,
        Std.ExtTreeMap.insertMany_cons]
      exact ih _
    | literal l =>
      rw [List.cons_append, List.cons_append, lay, if_pos rfl, advance, if_neg (hne _), bindings]
      exact ih _
      all_goals simp

/-- Segments that stand one to one with all parts. -/
theorem lay_aligned_end (h : List.Forall₂ Takes q xs) (m : Params) :
    lay q xs m v = .ok (m.insertMany (bindings q xs)) := by
  induction h generalizing m with
  | nil => rw [lay]; rfl
  | @cons a x q xs h hs ih =>
    -- on the last part the cursor stays, but no segment is left
    have hadv : ∀ m, lay (advance a q) xs m v = lay q xs m v := by
      intro m
      unfold advance
      split
      · next hq =>
        subst hq
        cases hs
        rw [lay, lay]
      · rfl
    cases h with
    | param n x => rw [lay, hadv, ih, bindings, Std.ExtTreeMap.insertMany_cons]
    | literal l =>
      rw [lay, if_pos rfl, hadv, ih, bindings]
      all_goals simp

theorem mem_advance {a b : RoutePart} (h : b ∈ advance a q) : b ∈ a :: q := by
  unfold advance at h
  split at h
  · rw [List.mem_singleton.mp h]; exact List.mem_cons_self
  · exact List.mem_cons_of_mem a h

/-- Without a wildcard ahead, a name that is not ahead keeps its binding. -/
theorem lay_frame {key : String} (hw : .wildcard ∉ q) (hk : .param key ∉ q)
    (h : lay q xs m v = .ok m') : m'[key]? = m[key]? := by
  fun_induction lay q xs m v with
  | case1 => cases h; rfl
  | case2 => cases h
  | case3 n q x xs m v ih =>
    have hn : n ≠ key := by rintro rfl; exact hk List.mem_cons_self
    rw [ih (fun h' => hw (mem_advance h')) (fun h' => hk (mem_advance h')) h]
    exact getElem?_insert_ne hn
  | case4 q l xs m v ih => exact ih (fun h' => hw (mem_advance h')) (fun h' => hk (mem_advance h')) h
  | case5 => cases h
  | case6 q x xs m v ih => exact ih (fun h' => hw (mem_advance h')) (fun h' => hk (mem_advance h')) h
  | _ => exact absurd List.mem_cons_self hw

/-- The last part, a param, takes one segment after the other and keeps the last. -/
theorem lay_last_param (n t : String) (v : List String) : ∀ (xs : List String) (m : Params),
    lay [.param n] (xs ++ [t]) m v = .ok (m.insert n t)
  | [], m => by rw [List.nil_append, lay, lay]
  | x :: xs, m => by
    rw [List.cons_append, lay, advance, if_pos rfl, lay_last_param n t v xs, insert_insert]

/-- The last part, a literal, binds nothing. -/
theorem lay_last_literal {l : String} (h : lay [.pathComponent l] xs m v = .ok m') : m' = m := by
  induction xs with
  | nil =>
    rw [lay] at h
    cases h
    rfl
  | cons x xs ih =>
    rw [lay, advance, if_pos rfl] at h
    split at h
    · exact ih h
    · cases h

end Walk

/-! Patterns without a wildcard. -/

section Plain
variable {ps : List String} {s : String} {m : Params}

/-- Without an empty raw segment before the last part, the bindings are those of the segments. -/
theorem eq_bindings_of_lay (hps : "*" ∉ ps) (hs : startsWith s '/' = true)
    (ha : List.Forall₂ SegAgrees ps (segments s '/'))
    (he : "" ∉ (rawSegments s '/').take (ps.length - 1))
    (h : lay (ps.map classify) (rawSegments s '/') ∅ [] = .ok m) :
    m = (∅ : Params).insertMany (bindings (ps.map classify) (segments s '/')) := by
  rcases List.eq_nil_or_concat' ps with rfl | ⟨ps, y, rfl⟩
  · cases hraw : rawSegments s '/' with
    | nil =>
      rw [hraw, lay] at h
      cases h
      rfl
    | cons x xs =>
      rw [hraw, List.map_nil, lay] at h
      cases h
  · obtain ⟨hps, hy⟩ : "*" ∉ ps ∧ "*" ≠ y := by simpa [not_or] using hps
    have hlen : (segments s '/').length = ps.length + 1 := by simp [← ha.length_eq]
    rw [List.length_append, List.length_singleton, Nat.add_sub_cancel] at he
    obtain ⟨es, t, hraw, hseg⟩ := rawSegments_eq_of_not_mem hs hlen he
    have hl : ((rawSegments s '/').take ps.length).length = ps.length := by
      have := congrArg List.length hseg
      simp only [hlen, List.length_append, List.length_singleton] at this
      omega
    generalize (rawSegments s '/').take ps.length = a at *
    rw [hseg] at ha ⊢
    -- all parts but the last stand one to one with the raw segments
    have hap : List.Forall₂ SegAgrees ps a := by
      have := List.forall₂_take_append _ _ _ ha
      rwa [hl, List.take_left] at this
    have hyt : SegAgrees y t := by
      have := List.forall₂_drop_append _ _ _ ha
      rw [hl, List.drop_left] at this
      exact (List.forall₂_cons.mp this).1
    have htakes := forall₂_takes hps hap
    rw [hraw, List.map_append, lay_aligned htakes (by simp)] at h
    rw [List.map_append, bindings_append htakes, Std.ExtTreeMap.insertMany_append]
    -- and the last part takes the rest
    rw [List.map_singleton] at h ⊢
    have hlast := takes_classify hy.symm hyt
    generalize classify y = r at h hlast ⊢
    cases hlast with
    | param n =>
      rw [lay_last_param] at h
      cases h
      rfl
    | literal =>
      rw [lay_last_literal h]
      rfl

/-- The bindings of segments standing one to one with the parts: one for each param, of
    the segment at its position. -/
theorem getElem?_bindings {q : List RoutePart} {xs : List String} (h : List.Forall₂ Takes q xs)
    (hd : (names q).Nodup) :
    (∀ n, n ∈ (∅ : Params).insertMany (bindings q xs) ↔ n ∈ names q) ∧
      ∀ (k : Nat) (n : String), q[k]? = some (.param n) →
        ((∅ : Params).insertMany (bindings q xs))[n]? = xs[k]? := by
  rw [← bindings_fst h] at hd
  refine ⟨fun n => ?_, fun k n hk => ?_⟩
  · rw [Std.ExtTreeMap.mem_insertMany_list, bindings_fst h]
    simp
  · obtain ⟨x, hx, hmem⟩ := mem_bindings h hk
    rw [hx, getElem?_insertMany_of_mem hd hmem]

/-- An empty raw segment that stands before the last part stands at a param, which is
    bound to it. -/
theorem empty_binding {q₁ q₂ : List RoutePart} {r : RoutePart} {a b v : List String} {m' : Params}
    (ha : List.Forall₂ Takes q₁ a) (hq₂ : q₂ ≠ []) (hq : Walkable (r :: q₂)) (hr : r ≠ .pathComponent "")
    (hw : .wildcard ∉ r :: q₂) (hd : (names (r :: q₂)).Nodup)
    (h : lay (q₁ ++ r :: q₂) (a ++ "" :: b) m v = .ok m') : ∃ n, r = .param n ∧ m'[n]? = some "" := by
  rw [lay_aligned ha (by simp)] at h
  cases r with
  | param n =>
    have hn : n ∉ names q₂ := (List.nodup_cons.mp hd).1
    rw [lay, advance, if_neg hq₂] at h
    refine ⟨n, rfl, ?_⟩
    rw [lay_frame (fun h => hw (List.mem_cons_of_mem _ h)) (fun h => hn (mem_names.mpr h)) h]
    simp
  | pathComponent l =>
    have hl : "" ≠ l := by
      rintro rfl
      exact hr rfl
    rw [lay, if_neg hl] at h
    cases h
  | wildcard => exact absurd List.mem_cons_self hw
  | leader => exact absurd List.mem_cons_self hq.noLeader

/-- An empty raw segment before the place of the last part ends up as the value of a param. -/
theorem exists_empty_value {P : Pattern} (hw : .wildcard ∉ P.body) (hd : (names P.body).Nodup)
    (hs : startsWith s '/' = true) (htakes : List.Forall₂ Takes P.body (segments s '/'))
    (he : "" ∈ (rawSegments s '/').take (P.body.length - 1))
    (h : lay P.body (rawSegments s '/') ∅ [] = .ok m) :
    ∃ (k : Nat) (n : String), P.body[k]? = some (.param n) ∧ m[n]? = some "" := by
  obtain ⟨a, b, hraw, hlen, hseg⟩ := rawSegments_eq_of_mem hs he
  have ha : List.Forall₂ Takes (P.body.take a.length) a := by
    have := List.forall₂_take a.length htakes
    rwa [hseg] at this
  obtain ⟨r, q₂, hdrop⟩ : ∃ (r : RoutePart) (q₂ : List RoutePart), P.body.drop a.length = r :: q₂ :=
    ⟨_, _, List.drop_eq_getElem_cons (by omega)⟩
  have hq₂ : q₂ ≠ [] := by
    rintro rfl
    have := congrArg List.length hdrop
    simp only [List.length_drop, List.length_singleton] at this
    omega
  have hsuffix : r :: q₂ <:+ P.body := hdrop ▸ List.drop_suffix _ _
  have hq : Walkable (r :: q₂) := ⟨fun hl => P.noLeader (hsuffix.subset hl), P.spaced.suffix hsuffix⟩
  have hr : r ≠ .pathComponent "" := by
    rintro rfl
    exact P.literal "" (hsuffix.subset List.mem_cons_self) rfl
  have hnodup : (names (r :: q₂)).Nodup := by
    rw [← hdrop]
    exact hd.sublist ((List.drop_sublist _ _).filterMap _)
  -- the walk has bound what stands before, and comes to `r` with the empty segment
  rw [hraw, ← List.take_append_drop a.length P.body, hdrop] at h
  obtain ⟨n, rfl, hn⟩ := empty_binding ha hq₂ hq hr (fun h => hw (hsuffix.subset h)) hnodup h
  refine ⟨a.length, n, ?_, hn⟩
  have : (P.body.drop a.length)[0]? = some (.param n) := by rw [hdrop]; rfl
  rwa [List.getElem?_drop, Nat.add_zero] at this

end Plain

/-- **Empty segments shift what is extracted.** For every accepted pattern without `*` and
    with distinct param names, and every request that starts with a slash: whatever
    extraction returns has exactly the params as its keys and the non-empty segments
    at their positions as their values, exactly when it is not the case that the
    comparison admits the request, that it can be laid along the pattern, and that it
    has an empty raw segment before the place of the last part. -/
theorem extract_segments_iff {pat s : String} {p : Path} (hpat : startsWith pat '/' = true)
    (hp : Path.new pat = .ok p) (hstar : "*" ∉ segments pat '/') (hd : p.params.Nodup)
    (hs : startsWith s '/' = true) :
    (∀ m, p.extract s = .ok m → (∀ n, n ∈ m ↔ n ∈ p.params) ∧
      ∀ (k : Nat) (n : String), p.body[k]? = some (.param n) → m[n]? = (segments s '/')[k]?) ↔
    ¬(Admits (segments pat '/') (segments s '/') ∧ Laid p.body (rawSegments s '/') ∧
      "" ∈ (rawSegments s '/').take (p.body.length - 1)) := by
  have hnp := matches_ne_panic hp s
  have hps := pathSegments_of_startsWith hpat
  have hadmits := matches_eq_true (s := s) hp
  rw [pathSegments_of_startsWith hs] at hadmits
  rw [← hps] at hstar ⊢
  rw [← hadmits]
  by_cases hm : p.matches s = .ok true
  · have ha := (hadmits.mp hm).forall₂ hstar
    have htakes := forall₂_takes hstar ha
    obtain ⟨P, rfl, hP⟩ := exists_pattern hp
    have hbody : P.path.body = P.body := rfl
    rw [extract_of_matches hm, hbody, params_path] at *
    constructor
    · intro h ⟨_, hlaid, he⟩
      obtain ⟨m, hlay⟩ := lay_of_laid hlaid ∅ []
      have hw : .wildcard ∉ P.body := hP ▸ mt wildcard_mem_classify.mp hstar
      obtain ⟨k, n, hk, hn⟩ := exists_empty_value hw hd hs (hP ▸ htakes) he hlay
      have hseg := (h m hlay).2 k n hk
      rw [hn] at hseg
      -- no segment is empty
      exact (mem_segments (List.mem_of_getElem? hseg.symm)).1 rfl
    · intro h m hlay
      have he : "" ∉ (rawSegments s '/').take ((pathSegments pat).length - 1) := by
        intro he
        refine h ⟨hm, laid_of_lay P.walkable hlay, ?_⟩
        rwa [hP, List.length_map]
      rw [hP] at hlay hd ⊢
      rw [eq_bindings_of_lay hstar hs ha he hlay]
      exact getElem?_bindings htakes hd
  · obtain ⟨P, rfl, -⟩ := exists_pattern hp
    rw [extract_of_not_matches hm hnp]
    simp [hm]

/-- `/x/y/` has no empty raw segment before the place of `:b`. -/
theorem extract_segments_iff_trailing_slash : ∃ m,
    Path.extract ⟨[.leader, .param "a", .param "b"]⟩ "/x/y/" = .ok m ∧ "a" ∈ m ∧ m["b"]? = some "y" := by
  have h := (@extract_segments_iff "/:a/:b" "/x/y/" ⟨[.leader, .param "a", .param "b"]⟩
    (by decide) (by decide) (by decide) (by decide) (by decide)).mpr fun h => absurd h.2.2 (by decide)
  have hm : Path.extract ⟨[.leader, .param "a", .param "b"]⟩ "/x/y/" =
      .ok ((∅ : Params).insertMany [("a", "x"), ("b", "y")]) := by decide
  obtain ⟨hkeys, hvalues⟩ := h _ hm
  refine ⟨_, hm, (hkeys "a").mpr (by decide), ?_⟩
  rw [hvalues 1 "b" rfl]
  decide

/-- The segments of `//x/y` are `x` and `y`, but `:a` is bound to the empty raw segment. -/
theorem extract_shifts_bindings : Path.new "/:a/:b" = .ok ⟨[.leader, .param "a", .param "b"]⟩ ∧
    segments "//x/y" '/' = ["x", "y"] ∧
    ∃ m, Path.extract ⟨[.leader, .param "a", .param "b"]⟩ "//x/y" = .ok m ∧ m["a"]? = some "" ∧
      m["b"]? = some "y" :=
  ⟨by decide, by decide, (∅ : Params).insertMany [("a", ""), ("b", "y")], by decide, by decide, by decide⟩

end DavisJr
