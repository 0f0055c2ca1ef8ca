import DavisJr.Capture

/- Filling in a pattern and extracting from the result. A pattern is filled by putting a
   value for each param and a list of segments for `*`; the request is the outcome,
   joined by slashes. When the `*` is the last segment, or there is none, extraction
   gives the assignment back (`extract_fill`). When a literal follows it, extraction
   leaves the wildcard at the first segment equal to that literal after the
   wildcard's first, so it gives the assignment back exactly when the literal is not
   among the later segments that the `*` stands for (`extract_fill_inner_iff`). -/
namespace DavisJr
open Lib Lib.Str Lib.Glob Lib.Table

/-- A value that can stand for a param or in a wildcard's list. -/
def IsValue (x : String) : Prop := IsField '/' x ∧ x ≠ "*"

instance : DecidablePred IsValue := fun x =>
  inferInstanceAs (Decidable ((x ≠ "" ∧ '/' ∉ x.toList) ∧ x ≠ "*"))

/-- A pattern segment other than `*` with the value of its param put in. -/
def fillOne (σ : String → String) (seg : String) : String :=
  if startsWith seg ':' then σ (trimStartMatches seg ':') else seg

def fillSegment (σ : String → String) (w : List String) (seg : String) : List String :=
  if seg = "*" then w else [fillOne σ seg]

/-- The request that fills the pattern's segments, with `k` more slashes at its end. -/
def fill (segs : List String) (σ : String → String) (w : List String) (k : Nat) : String :=
  slashed (segs.flatMap (fillSegment σ w)) '/' k

/-- Params only ever have the names that the pattern's segments give them. -/
theorem mem_names_classify {n : String} {segs : List String} :
    n ∈ names (segs.map classify) ↔ ∃ y ∈ segs, startsWith y ':' = true ∧ trimStartMatches y ':' = n := by
  rw [mem_names, List.mem_map]
  simp only [classify_eq_param]

section Fill
variable {σ : String → String} {w : List String}

/-- Segments without `*` are filled one by one. -/
theorem flatMap_fillSegment : ∀ {ps : List String}, "*" ∉ ps →
    ps.flatMap (fillSegment σ w) = ps.map (fillOne σ)
  | [], _ => rfl
  | p :: ps, h => by
    obtain ⟨hp, hps⟩ : p ≠ "*" ∧ "*" ∉ ps := by simpa [eq_comm] using h
    rw [List.flatMap_cons, List.map_cons, fillSegment, if_neg hp, flatMap_fillSegment hps]
    rfl

theorem flatMap_fillSegment_wildcard {pre post : List String} (hpre : "*" ∉ pre) (hpost : "*" ∉ post) :
    (pre ++ "*" :: post).flatMap (fillSegment σ w) = pre.map (fillOne σ) ++ (w ++ post.map (fillOne σ)) := by
  rw [List.flatMap_append, List.flatMap_cons, flatMap_fillSegment hpre, flatMap_fillSegment hpost,
    fillSegment, if_pos rfl]

theorem forall₂_segAgrees_fill (ps : List String) : List.Forall₂ SegAgrees ps (ps.map (fillOne σ)) := by
  induction ps with
  | nil => exact .nil
  | cons p ps ih =>
    refine .cons ?_ ih
    unfold fillOne SegAgrees
    split
    · next hc => exact .inl hc
    · exact .inr rfl

/-- The bindings that the filled segments make are the assignment's. -/
theorem bindings_fill : ∀ {ps : List String}, "*" ∉ ps →
    bindings (ps.map classify) (ps.map (fillOne σ)) = (names (ps.map classify)).map fun n => (n, σ n)
  | [], _ => rfl
  | p :: ps, h => by
    obtain ⟨hp, hps⟩ : p ≠ "*" ∧ "*" ∉ ps := by simpa [eq_comm] using h
    have ih := bindings_fill hps
    rw [List.map_cons, List.map_cons]
    by_cases hc : startsWith p ':' = true
    · rw [classify_eq_param.mpr ⟨hc, rfl⟩, fillOne, if_pos hc, bindings, ih]
      rfl
    · rw [classify_eq_pathComponent.mpr ⟨rfl, hp, by simpa using hc⟩, bindings, ih]
      · rfl
      · simp

/-- The filled segments are values. -/
theorem isValue_fillOne {ps : List String} (hps : "*" ∉ ps) (hfield : ∀ x ∈ ps, IsField '/' x)
    (hσ : ∀ n ∈ names (ps.map classify), IsValue (σ n)) : ∀ x ∈ ps.map (fillOne σ), IsValue x := by
  intro x hx
  obtain ⟨y, hy, rfl⟩ := List.mem_map.mp hx
  unfold fillOne
  split
  · next hc => exact hσ _ (mem_names_classify.mpr ⟨y, hy, hc, rfl⟩)
  · exact ⟨hfield y hy, fun h => hps (h ▸ hy)⟩

/-- Segments without `*` may follow each other in any order. -/
theorem isChain_of_values : ∀ {segs : List String}, (∀ x ∈ segs, IsValue x) → segs.IsChain Follows
  | [], _ => .nil
  | [x], _ => .singleton x
  | x :: y :: segs, h => by
    rw [List.isChain_cons_cons]
    exact ⟨fun hx => absurd hx (h x (by simp)).2, isChain_of_values fun z hz => h z (List.mem_cons_of_mem x hz)⟩

end Fill

section Request
variable {segs : List String} {k : Nat}

/-- A request made of values: what the parser, the matcher and the loop read of it. -/
theorem request_of_values (h : ∀ x ∈ segs, IsValue x) :
    (∃ o, Path.new (slashed segs '/' k) = .ok o) ∧ pathSegments (slashed segs '/' k) = segs ∧
      rawSegments (slashed segs '/' k) '/' = segs := by
  have hfield : ∀ x ∈ segs, IsField '/' x := fun x hx => (h x hx).1
  have hseg : pathSegments (slashed segs '/' k) = segs := by
    rw [pathSegments_of_startsWith (startsWith_slashed _ _ _), segments_slashed hfield]
  refine ⟨⟨_, new_of_isChain ?_⟩, hseg, rawSegments_slashed hfield⟩
  rw [hseg]
  exact isChain_of_values h

variable {pat : String} {p : Path} {ps : List String}

/-- A wildcard-free pattern matches, and is walked along, the segments that agree with it. -/
theorem extract_plain (hp : Path.new pat = .ok p) (hps : pathSegments pat = ps) (hstar : "*" ∉ ps)
    (hv : ∀ x ∈ segs, IsValue x) (ha : List.Forall₂ SegAgrees ps segs) :
    p.extract (slashed segs '/' k) = lay (ps.map classify) segs ∅ [] := by
  obtain ⟨⟨o, ho⟩, hseg, hraw⟩ := request_of_values (k := k) hv
  have hm : p.matches (slashed segs '/' k) = .ok true := by
    rw [matches_plain hp ho (hps ▸ hstar), hps, hseg, decide_eq_true ha]
  obtain ⟨P, rfl, hP⟩ := exists_pattern hp
  rw [extract_of_matches hm, hraw, hP, hps]

/-- A wildcard pattern matches, and is walked along, the segments that start with a
    text for what precedes its wildcard. -/
theorem extract_wildcard {pre post a b : List String} (hp : Path.new pat = .ok p)
    (hps : pathSegments pat = pre ++ "*" :: post) (hpre : "*" ∉ pre) (hv : ∀ x ∈ a ++ b, IsValue x)
    (ha : List.Forall₂ SegAgrees pre a) : p.extract (slashed (a ++ b) '/' k) =
      lay (pre.map classify ++ .wildcard :: post.map classify) (a ++ b) ∅ [] := by
  obtain ⟨⟨o, ho⟩, hseg, hraw⟩ := request_of_values (k := k) hv
  have hm : p.matches (slashed (a ++ b) '/' k) = .ok true := by
    have hagree := (agreeOn_append_right (b := b) ha.length_eq).mpr (forall₂_iff_agreeOn.mp ha).2
    rw [matches_wildcard hp ho hps hpre, hseg, decide_eq_true hagree]
  obtain ⟨P, rfl, hP⟩ := exists_pattern hp
  rw [extract_of_matches hm, hraw, hP, hps, List.map_append, List.map_cons, classify_eq_wildcard.mpr rfl]

end Request

/-! The two laws. -/

theorem names_wildcard {pre post : List String} : names ((pre ++ "*" :: post).map classify) =
    names (pre.map classify) ++ names (post.map classify) := by
  rw [List.map_append, List.map_cons, classify_eq_wildcard.mpr rfl]
  unfold names
  rw [List.filterMap_append]
  rfl

/-- The params of an accepted pattern, read off its segments. -/
theorem params_of_new {pat : String} {p : Path} (hp : Path.new pat = .ok p) :
    p.params = names ((pathSegments pat).map classify) := by
  obtain ⟨P, rfl, hP⟩ := exists_pattern hp
  rw [params_path, hP]

/-- The params that an assignment gives. -/
def assigned (σ : String → String) (ns : List String) : Params :=
  (∅ : Params).insertMany (ns.map fun n => (n, σ n))

theorem getElem?_assigned {σ : String → String} {ns : List String} {key : String} :
    (assigned σ ns)[key]? = if key ∈ ns then some (σ key) else none := by
  rw [assigned, getElem?_insertMany_map]
  simp

section Law
variable {pat : String} {p : Path} {σ : String → String} {w ps pre post : List String} {k : Nat}

theorem isField_of_pathSegments (hps : pathSegments pat = ps) : ∀ x ∈ ps, IsField '/' x := by
  subst hps
  exact fun x hx => mem_pathSegments hx

/-- A filled pattern without wildcard gives its assignment. -/
theorem extract_fill_plain (hp : Path.new pat = .ok p) (hps : pathSegments pat = ps) (hstar : "*" ∉ ps)
    (hσ : ∀ n ∈ names (ps.map classify), IsValue (σ n)) :
    p.extract (fill ps σ w k) = .ok (assigned σ (names (ps.map classify))) := by
  have hv := isValue_fillOne hstar (isField_of_pathSegments hps) hσ
  rw [fill, flatMap_fillSegment hstar, extract_plain hp hps hstar hv (forall₂_segAgrees_fill ps),
    lay_aligned_end (forall₂_takes hstar (forall₂_segAgrees_fill ps)), bindings_fill hstar]
  rfl

/-- A filled pattern with a wildcard is walked up to it with the assignment of the params before it. -/
theorem extract_fill_wildcard (hp : Path.new pat = .ok p) (hps : pathSegments pat = pre ++ "*" :: post)
    (hpre : "*" ∉ pre) (hpost : "*" ∉ post)
    (hσ : ∀ n ∈ names ((pre ++ "*" :: post).map classify), IsValue (σ n)) (hw : ∀ x ∈ w, IsValue x) :
    p.extract (fill (pre ++ "*" :: post) σ w k) = lay (.wildcard :: post.map classify)
      (w ++ post.map (fillOne σ)) (assigned σ (names (pre.map classify))) [] := by
  have hfield := isField_of_pathSegments hps
  rw [names_wildcard, List.forall_mem_append] at hσ
  have hprev : ∀ x ∈ pre.map (fillOne σ), IsValue x :=
    isValue_fillOne hpre (fun x hx => hfield x (by simp [hx])) hσ.1
  have hpostv : ∀ x ∈ post.map (fillOne σ), IsValue x :=
    isValue_fillOne hpost (fun x hx => hfield x (by simp [hx])) hσ.2
  have hall : ∀ x ∈ pre.map (fillOne σ) ++ (w ++ post.map (fillOne σ)), IsValue x := by
    simp only [List.forall_mem_append]
    exact ⟨hprev, hw, hpostv⟩
  rw [fill, flatMap_fillSegment_wildcard hpre hpost,
    extract_wildcard hp hps hpre hall (forall₂_segAgrees_fill pre),
    lay_aligned (forall₂_takes hpre (forall₂_segAgrees_fill pre)) (by simp), bindings_fill hpre]
  rfl

end Law

/-- A list with `*` in no place but its last. -/
theorem eq_append_wildcard {segs : List String} (hmem : "*" ∈ segs) (hlast : "*" ∉ segs.dropLast) :
    segs = segs.dropLast ++ ["*"] := by
  have hsplit := List.dropLast_append_getLast (List.ne_nil_of_mem hmem)
  rw [← hsplit, List.mem_append, List.mem_singleton] at hmem
  rw [hmem.resolve_left hlast]
  exact hsplit.symm

/-- **Extraction undoes filling in a pattern whose wildcard is last.** For every accepted
    pattern without `*`, or with one as its last segment, every assignment of values to
    its params, every list for the `*` and any number of slashes at the end, the filled
    request gives back the assignment, the joined list under `*`, and nothing else. -/
theorem extract_fill {pat : String} {p : Path} {σ : String → String} {w : List String} (k : Nat)
    (hpat : startsWith pat '/' = true) (hp : Path.new pat = .ok p)
    (hlast : "*" ∉ (segments pat '/').dropLast) (hstar : "*" ∉ p.params)
    (hσ : ∀ n ∈ p.params, IsValue (σ n))
    (hw : "*" ∈ segments pat '/' → w ≠ [] ∧ ∀ x ∈ w, IsValue x) :
    ∃ m, p.extract (fill (segments pat '/') σ w k) = .ok m ∧
      ∀ key, m[key]? = if key ∈ p.params then some (σ key)
        else if key = "*" ∧ "*" ∈ segments pat '/' then some (join w "/") else none := by
  have hps := pathSegments_of_startsWith hpat
  rw [params_of_new hp, hps] at hstar hσ ⊢
  generalize segments pat '/' = segs at *
  by_cases hmem : "*" ∈ segs
  · obtain ⟨hne, hwv⟩ := hw hmem
    obtain ⟨x, mid, rfl⟩ := List.exists_cons_of_ne_nil hne
    -- the wildcard is the last part, and takes the whole list
    have hsegs := eq_append_wildcard hmem hlast
    generalize segs.dropLast = pre at hlast hsegs
    subst hsegs
    have hext := extract_fill_wildcard (k := k) hp hps hlast List.not_mem_nil hσ hwv
    rw [List.map_nil, List.map_nil, List.append_nil, lay_last] at hext
    refine ⟨_, hext, fun key => ?_⟩
    rw [names_wildcard, List.map_nil] at hstar ⊢
    by_cases hk : key = "*"
    · subst hk
      simp [hstar]
    · rw [getElem?_insert_ne (Ne.symm hk), getElem?_assigned]
      simp [hk, names]
  · refine ⟨_, extract_fill_plain hp hps hmem hσ, fun key => ?_⟩
    rw [getElem?_assigned]
    simp [hmem]

/-- `/abc/:test/*` filled with a value that looks like a param. -/
theorem extract_fill_colon : ∃ m,
    Path.extract ⟨[.leader, .pathComponent "abc", .param "test", .wildcard]⟩ "/abc/:x/a/b//" = .ok m ∧
      m["test"]? = some ":x" ∧ m["*"]? = some "a/b" ∧ m["abc"]? = none := by
  obtain ⟨m, hm, h⟩ := @extract_fill "/abc/:test/*"
    ⟨[.leader, .pathComponent "abc", .param "test", .wildcard]⟩ (fun _ => ":x") ["a", "b"] 2
    (by decide) (by decide) (by decide) (by decide) (by decide) (by decide)
  exact ⟨m, hm, by rw [h]; decide, by rw [h]; decide, by rw [h]; decide⟩

/-! A literal follows the wildcard. -/

section Inner
variable {pat : String} {p : Path} {σ : String → String} {pre post w : List String} {lit : String}

/-- What comes right after `*` in an accepted pattern is a literal. -/
theorem classify_after_wildcard (hp : Path.new pat = .ok p)
    (hps : pathSegments pat = pre ++ "*" :: lit :: post) :
    classify lit = .pathComponent lit ∧ fillOne σ lit = lit := by
  have hch := (new_eq_ok.mp hp).1
  rw [hps] at hch
  obtain ⟨hne, hc⟩ := (List.isChain_cons_cons.mp (List.isChain_append.mp hch).2.1).1 rfl
  exact ⟨classify_eq_pathComponent.mpr ⟨rfl, hne, hc⟩, if_neg (by simp [hc])⟩

variable {q : List RoutePart} {mid rest : List String} {x : String} {m m' : Params}

/-- A literal inside the wildcard ends it: what is bound to `*` stops before the first. -/
theorem getElem?_of_lay_inner (hmem : lit ∈ mid) (hw : .wildcard ∉ q) (hk : .param "*" ∉ q)
    (h : lay (.wildcard :: .pathComponent lit :: q) (x :: (mid ++ rest)) m [] = .ok m') :
    m'["*"]? = some (join (x :: before lit mid) "/") := by
  rw [eq_before_append_after hmem, List.append_assoc, List.cons_append,
    lay_leave (not_mem_before lit mid)] at h
  rw [lay_frame hw hk h, Std.ExtTreeMap.getElem?_insert_self, List.nil_append]

/-- A list of segments that is cut short is joined to another text. -/
theorem join_before_ne (hmem : lit ∈ mid) (hv : ∀ y ∈ x :: mid, '/' ∉ y.toList) :
    join (x :: mid) "/" ≠ join (x :: before lit mid) "/" := by
  intro h
  have hsub : ∀ y ∈ x :: before lit mid, y ∈ x :: mid :=
    ((List.takeWhile_prefix _).sublist.cons_cons x).subset
  have heq : x :: mid = x :: before lit mid :=
    join_inj (c := '/') (by simp) (by simp) hv (fun y hy => hv y (hsub y hy)) h
  exact not_mem_before lit mid ((List.cons.inj heq).2 ▸ hmem)

end Inner

/-- **An inner wildcard is undone only up to its literal.** For every accepted pattern
    with one `*` and a segment `lit` after it, every assignment and every list for the
    `*`: extraction from the filled request gives back the assignment and the joined
    list, and nothing else, exactly when `lit` is not among the list's segments after
    the first. Otherwise the walk leaves the wildcard at the first of these and does
    not come back. -/
theorem extract_fill_inner_iff {pat lit : String} {p : Path} {σ : String → String}
    {pre post w : List String} (hpat : startsWith pat '/' = true) (hp : Path.new pat = .ok p)
    (hseg : segments pat '/' = pre ++ "*" :: lit :: post) (hpre : "*" ∉ pre) (hpost : "*" ∉ lit :: post)
    (hstar : "*" ∉ p.params) (hσ : ∀ n ∈ p.params, IsValue (σ n)) (hne : w ≠ [])
    (hw : ∀ x ∈ w, IsValue x) :
    (∃ m, p.extract (fill (segments pat '/') σ w 0) = .ok m ∧
      ∀ key, m[key]? = if key = "*" then some (join w "/")
        else if key ∈ p.params then some (σ key) else none) ↔ lit ∉ w.tail := by
  have hps := pathSegments_of_startsWith hpat
  rw [params_of_new hp, hps] at hstar hσ ⊢
  rw [hseg] at hps hstar hσ ⊢
  obtain ⟨hlit, hfill⟩ := classify_after_wildcard (σ := σ) hp hps
  rw [extract_fill_wildcard hp hps hpre hpost hσ hw]
  obtain ⟨x, mid, rfl⟩ := List.exists_cons_of_ne_nil hne
  have hpost : "*" ∉ post := fun h => hpost (List.mem_cons_of_mem lit h)
  have hnames : names ((pre ++ "*" :: lit :: post).map classify) =
      names (pre.map classify) ++ names (post.map classify) := by
    rw [names_wildcard, List.map_cons, hlit]
    rfl
  rw [hnames] at hstar ⊢
  rw [List.mem_append, not_or] at hstar
  rw [List.map_cons, hlit, List.map_cons, hfill, List.cons_append, List.tail_cons]
  constructor
  · intro ⟨m, hm, h⟩ hmem
    -- the walk leaves the wildcard at the first `lit` in the list
    have hearly := getElem?_of_lay_inner hmem (mt wildcard_mem_classify.mp hpost)
      (fun hk => hstar.2 (mem_names.mpr hk)) hm
    rw [h "*", if_pos rfl, Option.some.injEq] at hearly
    exact join_before_ne hmem (fun y hy => (hw y hy).1.2) hearly
  · intro hmem
    rw [lay_leave hmem, lay_aligned_end (forall₂_takes hpost (forall₂_segAgrees_fill post)), bindings_fill hpost]
    refine ⟨_, rfl, fun key => ?_⟩
    rw [getElem?_insertMany_map]
    by_cases hk : key = "*"
    · subst hk
      simp [hstar.2]
    · rw [getElem?_insert_ne (Ne.symm hk), getElem?_assigned, if_neg hk]
      by_cases hkp : key ∈ names (post.map classify) <;> simp [hkp]

/-- The literal after the wildcard occurs once: `/abc/foo/bar/a/quux` for `/abc/*/a/:test`. -/
theorem extract_fill_inner_iff_once : ∃ m,
    Path.extract ⟨[.leader, .pathComponent "abc", .wildcard, .pathComponent "a", .param "test"]⟩
      "/abc/foo/bar/a/quux" = .ok m ∧ m["*"]? = some "foo/bar" ∧ m["test"]? = some "quux" := by
  obtain ⟨m, hm, h⟩ := (@extract_fill_inner_iff "/abc/*/a/:test" "a"
    ⟨[.leader, .pathComponent "abc", .wildcard, .pathComponent "a", .param "test"]⟩ (fun _ => "quux")
    ["abc"] [":test"] ["foo", "bar"] (by decide) (by decide) (by decide) (by decide) (by decide)
    (by decide) (by decide) (by decide) (by decide)).mpr (by decide)
  exact ⟨m, hm, by rw [h]; decide, by rw [h]; decide⟩

/-- The literal also occurs inside the wildcard: `/abc/x/a/y/a` is `/abc/*/a` filled with
    `x/a/y`, and the walk leaves the wildcard at the first `a` and then the pattern. -/
theorem extract_panics_inside_wildcard :
    Path.new "/abc/*/a" = .ok ⟨[.leader, .pathComponent "abc", .wildcard, .pathComponent "a"]⟩ ∧
      segments "/abc/*/a" '/' = ["abc"] ++ "*" :: "a" :: [] ∧ IsValue "x" ∧ IsValue "a" ∧ IsValue "y" ∧
      Path.extract ⟨[.leader, .pathComponent "abc", .wildcard, .pathComponent "a"]⟩
        (fill (segments "/abc/*/a" '/') (fun _ => "") ["x", "a", "y"] 0) = .panic := by
  decide

/-- With a param after the literal the walk goes on, and the wildcard has lost `a/bar`. -/
example : (Path.extract ⟨[.leader, .pathComponent "abc", .wildcard, .pathComponent "a", .param "test"]⟩
    "/abc/foo/a/bar/a/quux") = .ok ((∅ : Params).insertMany [("*", "foo"), ("test", "quux")]) := by
  decide

end DavisJr
