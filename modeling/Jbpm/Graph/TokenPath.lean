/-
  Token paths: full names of tokens, and the tokens that paths lead to.

  * `findPath_eq`: a path is followed component by component; an empty component
    before the last goes back to the root token;
  * `NamedTokens.tokenPaths_iff`: when a full name leads to its token, when a path
    that leads nowhere finds nothing and does not throw, and when a path may be
    followed in two parts.
-/
import Jbpm.Graph.Milestone
import Jbpm.Lib.Forest
import Jbpm.Lib.PathComponents

namespace Jbpm

open Lib

namespace Milestone

namespace Tokens

variable {T : Type} (S : Tokens T)

/-- What the last component of a path leads to. -/
def step (t : T) (c : List Char) : Option T :=
  if c = [] ∨ c = ['.'] then some t
  else if c = ['.', '.'] then S.parent t
  else (S.children t).bind (· c)

/-- What another component leads to; `none` if it throws. -/
def move (t : T) (c : List Char) : Option (Option T) :=
  if c = [] then some (some S.rootToken)
  else if c = ['.'] then some (some t)
  else if c = ['.', '.'] then some (S.parent t)
  else (S.children t).map (· c)

def andThen : Option (Option T) → (T → Option (Option T)) → Option (Option T)
  | some (some u), k => k u
  | r, _ => r

/-- The components of a path one after the other. -/
def walk : List (List Char) → T → Option (Option T)
  | [], t => some (some t)
  | [c], t => some (S.step t c)
  | c :: c' :: cs, t => andThen (S.move t c) (walk (c' :: cs))

def moves : List (List Char) → T → Option (Option T)
  | [], t => some (some t)
  | c :: cs, t => andThen (S.move t c) (moves cs)

variable {S} {t u w : T} {c : List Char} {cs ds : List (List Char)}

theorem andThen_eq_some {r : Option (Option T)} {k : T → Option (Option T)} :
    andThen r k = some (some u) ↔ ∃ w, r = some (some w) ∧ k w = some (some u) := by
  rcases r with _ | _ | w <;> simp [andThen]

theorem walk_cons (h : cs ≠ []) : S.walk (c :: cs) t = andThen (S.move t c) (S.walk cs) := by
  cases cs with
  | nil => exact (h rfl).elim
  | cons c' cs => rfl

theorem walk_append (h : ds ≠ []) : S.walk (cs ++ ds) t = andThen (S.moves cs t) (S.walk ds) := by
  induction cs generalizing t with
  | nil => rfl
  | cons c cs ih =>
    rw [List.cons_append, walk_cons (by simp [h]), moves]
    rcases S.move t c with _ | _ | u
    · rfl
    · rfl
    · exact ih

/-- A component that is a name. -/
def IsName (c : List Char) : Prop := c ≠ [] ∧ c ≠ ['.'] ∧ c ≠ ['.', '.']

instance (c : List Char) : Decidable (IsName c) := inferInstanceAs (Decidable (_ ∧ _ ∧ _))

theorem step_of_name (h : IsName c) : S.step t c = (S.children t).bind (· c) := by
  rw [step, if_neg (by simp [h.1, h.2.1]), if_neg h.2.2]

theorem move_of_name (h : IsName c) : S.move t c = (S.children t).map (· c) := by
  rw [move, if_neg h.1, if_neg h.2.1, if_neg h.2.2]

/-- A component that is not empty leads where it would lead as the last one, if it
    does not throw. -/
theorem move_eq (h : c ≠ []) :
    S.move t c = none ∧ IsName c ∧ S.children t = none ∨ S.move t c = some (S.step t c) := by
  by_cases hdot : c = ['.']
  · rw [move, step, if_neg h, if_pos hdot, if_pos (.inr hdot)]
    exact .inr rfl
  by_cases hdots : c = ['.', '.']
  · rw [move, step, if_neg h, if_neg hdot, if_pos hdots, if_neg (by simp [h, hdot]), if_pos hdots]
    exact .inr rfl
  have hname : IsName c := ⟨h, hdot, hdots⟩
  rw [move_of_name hname, step_of_name hname]
  rcases S.children t with _ | f
  · exact .inl ⟨rfl, hname, rfl⟩
  · exact .inr rfl

theorem move_of_step (h : c ≠ []) (hu : S.step t c = some u) : S.move t c = some (some u) := by
  rcases move_eq (S := S) (t := t) h with ⟨-, hname, hchildren⟩ | hmove
  · rw [step_of_name hname, hchildren] at hu
    cases hu
  · rw [hmove, hu]

theorem trim_eq (s : List Char) : trim s = Path.rtrim (Path.ltrim s) := rfl

theorem walk_slash {first rest : List Char} (h : '/' ∉ first) :
    S.walk (Path.components (first ++ '/' :: rest)) t =
      andThen (S.move t (Path.ltrim first)) (S.walk (Path.components rest)) := by
  rw [Path.components_append, List.splitOn_eq_singleton h]
  exact walk_cons (Path.components_ne_nil rest)

theorem first_isName {s rest : List Char} {x : Char} (h : s.dropWhile (· ≠ '/') = x :: rest)
    (hslash : ∀ path, s = '/' :: path → False) (hdot : ∀ path, s = '.' :: '/' :: path → False)
    (hdots : ∀ path, s = '.' :: '.' :: '/' :: path → False) : IsName (s.takeWhile (· ≠ '/')) := by
  obtain ⟨-, hs⟩ := Path.append_of_dropWhile h
  refine ⟨fun he => ?_, fun he => ?_, fun he => ?_⟩
  · rw [he] at hs
    exact hslash rest hs
  · rw [he] at hs
    exact hdot rest hs
  · rw [he] at hs
    exact hdots rest hs

/-- A path that starts with a name. -/
theorem walk_first {path rest : List Char} {x : Char}
    (h : (trim path).dropWhile (· ≠ '/') = x :: rest)
    (hname : IsName ((trim path).takeWhile (· ≠ '/'))) :
    S.walk (Path.components (trim path)) t =
      andThen ((S.children t).map (· ((trim path).takeWhile (· ≠ '/')))) (S.walk (Path.components rest)) := by
  obtain ⟨hslash, hs⟩ := Path.append_of_dropWhile h
  have htrim : Path.ltrim (trim path) = trim path := by
    rw [trim_eq, Path.rtrim_ltrim, Path.ltrim_ltrim]
  have hfirst : Path.ltrim ((trim path).takeWhile (· ≠ '/')) = (trim path).takeWhile (· ≠ '/') :=
    Path.ltrim_of_append (q := '/' :: rest) (by rw [← hs, htrim])
  conv_lhs => rw [hs]
  rw [walk_slash hslash, hfirst, move_of_name hname]

/-- `findToken` follows the components of its path. -/
theorem findPath_eq (t : T) (path : List Char) :
    S.findPath t path = S.walk (Path.components path) t := by
  rw [← Path.components_trim, ← trim_eq]
  fun_induction S.findPath t path with
  | case1 t path h =>
    rw [h]
    rfl
  | case2 t path h =>
    rw [h]
    rfl
  | case3 t path h =>
    rw [h]
    rfl
  | case4 t path rest h ih =>
    rw [h, ih, trim_eq, Path.components_trim, show '/' :: rest = [] ++ '/' :: rest from rfl,
      walk_slash List.not_mem_nil]
    rfl
  | case5 t path rest h ih =>
    rw [h, ih, trim_eq, Path.components_trim, show '.' :: '/' :: rest = ['.'] ++ '/' :: rest from rfl,
      walk_slash (by decide)]
    rfl
  | case6 t path rest h p hp ih =>
    rw [h, ih, trim_eq, Path.components_trim,
      show '.' :: '.' :: '/' :: rest = ['.', '.'] ++ '/' :: rest from rfl, walk_slash (by decide),
      show S.move t (Path.ltrim ['.', '.']) = some (S.parent t) from rfl, hp]
    rfl
  | case7 t path rest h hp =>
    rw [h, show '.' :: '.' :: '/' :: rest = ['.', '.'] ++ '/' :: rest from rfl,
      walk_slash (by decide), show S.move t (Path.ltrim ['.', '.']) = some (S.parent t) from rfl, hp]
    rfl
  | case8 t path hempty hdot hdots _ _ _ h =>
    have hslash : '/' ∉ trim path := fun hmem => by
      simpa using List.dropWhile_eq_nil_iff.1 h _ hmem
    rw [Path.components_of_notMem hslash, ← Path.rtrim_ltrim, trim_eq, Path.rtrim_ltrim path,
      Path.ltrim_ltrim, ← Path.rtrim_ltrim path, Path.rtrim_rtrim, ← trim_eq]
    exact congrArg some (step_of_name ⟨hempty, hdot, hdots⟩).symm
  | case9 t path c rest hchildren _ hdot hdots hslash hdot' hdots' h =>
    rw [walk_first h (first_isName h hslash hdot' hdots'), hchildren]
    rfl
  | case10 t path c rest children hchildren p _ hdot hdots hslash hdot' hdots' h hp ih =>
    rw [walk_first h (first_isName h hslash hdot' hdots'), hchildren, Option.map_some, hp, ih, trim_eq,
      Path.components_trim]
    rfl
  | case11 t path c rest children hchildren _ hdot hdots hslash hdot' hdots' h hp =>
    rw [walk_first h (first_isName h hslash hdot' hdots'), hchildren, Option.map_some, hp]
    rfl

/-! ## Paths that lead nowhere -/

variable (S) in
/-- A path of components, followed one step after the other. -/
def resolve (t : T) (cs : List (List Char)) : Option T := cs.foldlM S.step t

variable (S) in
/-- Where a path leads to from a token, as a path of files does: a slash in front
    stands for the root token, and empty components do not lead away. -/
def leadsTo (t : T) (path : List Char) : Option T :=
  match Path.components path with
  | [] :: c :: cs => S.resolve S.rootToken (c :: cs)
  | cs => S.resolve t cs

/-- The parts of a path between its empty components: the first one, and those after
    an empty component that is not the last. -/
def parts : List (List Char) → List (List Char) × List (List (List Char))
  | [] => ([], [])
  | [c] => ([c], [])
  | c :: c' :: cs =>
    let (b, bs) := parts (c' :: cs)
    if c = [] then ([], b :: bs) else (c :: b, bs)

variable (S) in
/-- The first part leads somewhere from the token, and the others from the root token. -/
def PartsLead (t : T) (cs : List (List Char)) : Prop :=
  (S.resolve t (parts cs).1).isSome ∧ ∀ b ∈ (parts cs).2, (S.resolve S.rootToken b).isSome

variable (S) in
/-- The path goes on by a name from a token that has no map of children. -/
inductive ThroughLeaf : T → List (List Char) → Prop
  | name {t : T} {c : List Char} {cs : List (List Char)} : IsName c → S.children t = none →
      cs ≠ [] → ThroughLeaf t (c :: cs)
  | root {t : T} {cs : List (List Char)} : cs ≠ [] → ThroughLeaf S.rootToken cs →
      ThroughLeaf t ([] :: cs)
  | step {t u : T} {c : List Char} {cs : List (List Char)} : c ≠ [] → S.step t c = some u →
      ThroughLeaf u cs → ThroughLeaf t (c :: cs)

theorem ThroughLeaf.ne_nil (h : S.ThroughLeaf t (c :: cs)) : cs ≠ [] := by
  cases h with
  | name _ _ h => exact h
  | root h _ => exact h
  | step _ _ h =>
    rintro rfl
    cases h

/-- Following a path throws just if it goes on from a token without a map. -/
theorem walk_eq_none : S.walk cs t = none ↔ S.ThroughLeaf t cs := by
  induction cs generalizing t with
  | nil => exact iff_of_false (by simp [walk]) nofun
  | cons c cs ih =>
    by_cases hcs : cs = []
    · subst hcs
      exact iff_of_false (by simp [walk]) fun h => h.ne_nil rfl
    rw [walk_cons hcs]
    by_cases hc : c = []
    · subst hc
      refine (ih (t := S.rootToken)).trans ⟨.root hcs, fun h => ?_⟩
      cases h with
      | name hname => exact (hname.1 rfl).elim
      | root _ h => exact h
      | step hne => exact (hne rfl).elim
    rcases move_eq (S := S) (t := t) hc with ⟨hmove, hname, hchildren⟩ | hmove
    · rw [hmove]
      exact iff_of_true rfl (.name hname hchildren hcs)
    · rw [hmove]
      have hthrough : S.ThroughLeaf t (c :: cs) ↔ ∃ u, S.step t c = some u ∧ S.ThroughLeaf u cs := by
        refine ⟨fun h => ?_, fun ⟨u, hu, h⟩ => .step hc hu h⟩
        cases h with
        | name hname hchildren =>
          rw [move_of_name hname, hchildren] at hmove
          cases hmove
        | root => exact (hc rfl).elim
        | step _ hu h => exact ⟨_, hu, h⟩
      rw [hthrough]
      rcases hu : S.step t c with _ | u
      · exact iff_of_false (by simp [andThen]) (by simp)
      · simp only [Option.some.injEq, exists_eq_left']
        exact ih

theorem parts_of_nil {c' : List Char} :
    parts ([] :: c' :: cs) = ([], (parts (c' :: cs)).1 :: (parts (c' :: cs)).2) := by
  rw [parts]
  exact if_pos rfl

theorem parts_of_ne_nil {c' : List Char} (h : c ≠ []) :
    parts (c :: c' :: cs) = (c :: (parts (c' :: cs)).1, (parts (c' :: cs)).2) := by
  rw [parts]
  exact if_neg h

/-- Otherwise it comes to a token just if all parts of the path lead somewhere. -/
theorem walk_isSome {r : Option T} (h : S.walk cs t = some r) :
    r.isSome = true ↔ S.PartsLead t cs := by
  induction cs generalizing t with
  | nil =>
    obtain rfl : some t = r := Option.some.inj h
    simp [PartsLead, parts, resolve]
  | cons c cs ih =>
    cases cs with
    | nil =>
      obtain rfl : S.step t c = r := Option.some.inj h
      simp [PartsLead, parts, resolve]
    | cons c' cs =>
      rw [walk_cons (by simp)] at h
      by_cases hc : c = []
      · subst hc
        rw [ih h, PartsLead, PartsLead, parts_of_nil]
        simp [resolve]
      · rcases move_eq (S := S) (t := t) hc with ⟨hmove, -, -⟩ | hmove
        · rw [hmove] at h
          cases h
        · rw [hmove] at h
          rw [PartsLead, parts_of_ne_nil hc, resolve, List.foldlM_cons]
          rcases hu : S.step t c with _ | u
          · rw [hu] at h
            obtain rfl : none = r := Option.some.inj h
            simp
          · rw [hu] at h
            exact ih h

/-- A path without empty components, other than the first or the last, has one part,
    or two if it starts with a slash. -/
theorem partsLead_iff_leadsTo {path : List Char}
    (h : [] ∉ (Path.components path).tail.dropLast) :
    S.PartsLead t (Path.components path) ↔ (S.leadsTo t path).isSome = true := by
  have hparts : ∀ cs : List (List Char), [] ∉ cs.dropLast → parts cs = (cs, []) := by
    intro cs
    induction cs with
    | nil => exact fun _ => rfl
    | cons c cs ih =>
      cases cs with
      | nil => exact fun _ => rfl
      | cons c' cs =>
        intro h
        rw [List.dropLast_cons_of_ne_nil (by simp), List.mem_cons, not_or] at h
        rw [parts_of_ne_nil (Ne.symm h.1), ih h.2]
  rw [leadsTo]
  rcases hcs : Path.components path with _ | ⟨c, _ | ⟨c', cs⟩⟩
  · exact (Path.components_ne_nil path hcs).elim
  · simp [PartsLead, parts]
  · rw [hcs, List.tail_cons] at h
    by_cases hc : c = []
    · subst hc
      rw [PartsLead, parts_of_nil, hparts _ h]
      simp [resolve]
    · have hne : [] ∉ (c :: c' :: cs).dropLast := by
        rw [List.dropLast_cons_of_ne_nil (by simp), List.mem_cons, not_or]
        exact ⟨Ne.symm hc, h⟩
      rw [PartsLead, hparts _ hne]
      simp [hc]

end Tokens

/-- The tree of the tokens of a process instance: a child is in the map of its parent
    under its name, which can be a component of a path. -/
structure NamedTokens (T : Type) where
  tokens : Tokens T
  name : T → List Char
  depth : T → ℕ
  depth_parent : ∀ {t p}, tokens.parent t = some p → depth p < depth t
  parent_eq_none : ∀ {t}, tokens.parent t = none ↔ t = tokens.rootToken
  child_of_parent : ∀ {t p}, tokens.parent t = some p →
    ∃ children, tokens.children p = some children ∧ children (name t) = some t
  parent_of_child : ∀ {p children c k}, tokens.children p = some children →
    children k = some c → tokens.parent c = some p ∧ name c = k
  isName : ∀ {t p}, tokens.parent t = some p → Tokens.IsName (name t) ∧ '/' ∉ name t

namespace NamedTokens

open Milestone.Tokens

variable {T : Type} (S : NamedTokens T)

def getFullName (t : T) : List Char :=
  match _ : S.tokens.parent t with
  | none => ['/']
  | some p =>
    match S.tokens.parent p with
    | none => '/' :: S.name t
    | some _ => getFullName p ++ '/' :: S.name t
termination_by S.depth t
decreasing_by exact S.depth_parent ‹_›

def forest : Forest T := ⟨S.tokens.parent, S.depth, S.depth_parent⟩

/-- The names on the way from the root token to a token. -/
def names (t : T) : List (List Char) := (S.forest.path t).reverse.tail.map S.name

variable {S} {t u w p : T}

theorem names_root : S.names S.tokens.rootToken = [] := by
  rw [names, Forest.path, Forest.ancestors_of_root (S.parent_eq_none.2 rfl)]
  rfl

theorem names_child (h : S.tokens.parent t = some p) : S.names t = S.names p ++ [S.name t] := by
  rw [names, Forest.path, Forest.ancestors_of_parent h, List.reverse_cons, names, Forest.path,
    List.tail_append_of_ne_nil (by simp), List.map_append]
  rfl

theorem slash_notMem_names : ∀ n ∈ S.names t, '/' ∉ n := by
  induction t using S.forest.induction with
  | root t h =>
    rw [S.parent_eq_none.1 h, names_root]
    exact nofun
  | child t p h ih =>
    rw [names_child h]
    intro n hn
    rcases List.mem_append.1 hn with hn | hn
    · exact ih n hn
    · rw [List.mem_singleton.1 hn]
      exact (S.isName h).2

/-- A full name has a slash before each name. -/
theorem getFullName_eq (h : S.tokens.parent t = some p) :
    S.getFullName t = (S.names p).flatMap ('/' :: ·) ++ '/' :: S.name t := by
  induction t using S.forest.induction generalizing p with
  | root t hroot =>
    rw [show S.tokens.parent t = none from hroot] at h
    cases h
  | child t p' hp ih =>
    obtain rfl : p' = p := Option.some.inj (hp.symm.trans h)
    rw [getFullName]
    split
    · next hn =>
      rw [h] at hn
      cases hn
    next q hq =>
    obtain rfl : p' = q := Option.some.inj (h.symm.trans hq)
    rcases hpp : S.tokens.parent p' with _ | q
    · rw [S.parent_eq_none.1 hpp, names_root]
      rfl
    · dsimp only
      rw [ih hpp, names_child hpp, List.flatMap_append]
      simp

theorem splitOn_flatMap {ns : List (List Char)} (h : ∀ n ∈ ns, '/' ∉ n) :
    (ns.flatMap ('/' :: ·)).splitOn '/' = [] :: ns := by
  induction ns using List.reverseRecOn with
  | nil => rfl
  | append_singleton ns n ih =>
    rw [List.flatMap_append, List.flatMap_singleton, List.splitOn_append_cons_self,
      ih fun m hm => h m (List.mem_append_left _ hm),
      List.splitOn_eq_singleton (h n (List.mem_append_right _ (List.mem_singleton_self n)))]
    rfl

theorem components_getFullName (h : S.tokens.parent t = some p) :
    Path.components (S.getFullName t) =
      [] :: ((S.names p).map Path.ltrim ++ [Path.ltrim (Path.rtrim (S.name t))]) := by
  rw [getFullName_eq h, Path.components_append, splitOn_flatMap slash_notMem_names,
    Path.components_of_notMem (S.isName h).2]
  rfl

/-! ## Where components lead -/

theorem names_of_children {children : List Char → Option T} {c : List Char}
    (h : S.tokens.children t = some children) (hu : children c = some u) :
    S.names u = S.names t ++ [c] := by
  obtain ⟨hp, hname⟩ := S.parent_of_child h hu
  rw [names_child hp, hname]

/-- Only a name leads further down, and only by one level. -/
theorem names_of_step {c : List Char} (h : S.tokens.step t c = some u) :
    S.names u = S.names t ++ [c] ∨ (S.names u).length ≤ (S.names t).length := by
  rw [Tokens.step] at h
  split at h
  · obtain rfl := Option.some.inj h
    exact .inr le_rfl
  · split at h
    · rw [names_child h, List.length_append]
      exact .inr (Nat.le_add_right ..)
    · obtain ⟨children, hchildren, hu⟩ := Option.bind_eq_some_iff.1 h
      exact .inl (names_of_children hchildren hu)

theorem names_of_move {c : List Char} (h : S.tokens.move t c = some (some u)) :
    S.names u = S.names t ++ [c] ∨ (S.names u).length ≤ (S.names t).length := by
  by_cases hc : c = []
  · subst hc
    obtain rfl : S.tokens.rootToken = u := by simpa [move] using h
    rw [names_root]
    exact .inr (Nat.zero_le _)
  · rcases move_eq (S := S.tokens) (t := t) hc with ⟨hmove, -, -⟩ | hmove
    · rw [hmove] at h
      cases h
    · rw [hmove] at h
      exact names_of_step (Option.some.inj h)

/-- A path that leads down by as many levels as it has components consists of names. -/
theorem names_of_walk {cs : List (List Char)} (h : S.tokens.walk cs t = some (some u)) :
    (S.names u).length ≤ (S.names t).length + cs.length ∧
      ((S.names u).length = (S.names t).length + cs.length → S.names u = S.names t ++ cs) := by
  induction cs generalizing t with
  | nil =>
    obtain rfl : t = u := by simpa [walk] using h
    simp
  | cons c cs ih =>
    by_cases hcs : cs = []
    · subst hcs
      rcases names_of_step (Option.some.inj h) with he | hle
      · rw [he, List.length_append]
        exact ⟨le_rfl, fun _ => rfl⟩
      · rw [List.length_singleton]
        exact ⟨by omega, fun h => by omega⟩
    · rw [walk_cons hcs, andThen_eq_some] at h
      obtain ⟨w, hw, h⟩ := h
      obtain ⟨hle, heq⟩ := ih h
      rw [List.length_cons]
      rcases names_of_move hw with he | hlen
      · rw [he, List.length_append, List.length_singleton] at hle heq
        refine ⟨by omega, fun h => ?_⟩
        rw [heq (by omega), List.append_assoc]
        rfl
      · exact ⟨by omega, fun h => by omega⟩

theorem step_name (h : S.tokens.parent t = some p) : S.tokens.step p (S.name t) = some t := by
  obtain ⟨children, hchildren, ht⟩ := S.child_of_parent h
  rw [step_of_name (S.isName h).1, hchildren, Option.bind_some, ht]

theorem moves_append {cs : List (List Char)} {c : List Char} :
    S.tokens.moves (cs ++ [c]) t = andThen (S.tokens.moves cs t) (S.tokens.move · c) := by
  induction cs generalizing t with
  | nil =>
    show andThen (S.tokens.move t c) (S.tokens.moves []) = S.tokens.move t c
    rcases S.tokens.move t c with _ | _ | u <;> rfl
  | cons d cs ih =>
    rw [List.cons_append, moves, moves]
    rcases S.tokens.move t d with _ | _ | u
    · rfl
    · rfl
    · exact ih

/-- The names of a token lead from the root token to it. -/
theorem moves_names (t : T) : S.tokens.moves (S.names t) S.tokens.rootToken = some (some t) := by
  induction t using S.forest.induction with
  | root t h =>
    rw [S.parent_eq_none.1 h, names_root]
    rfl
  | child t p h ih =>
    rw [names_child h, moves_append, ih]
    exact move_of_step (S.isName h).1.1 (step_name h)

/-- No name on the way to the token starts with a blank, and the last does not end with
    one. -/
def Unblanked (S : NamedTokens T) (t : T) : Prop :=
  (∀ n ∈ S.names t, Path.ltrim n = n) ∧ ∀ n ∈ (S.names t).getLast?, Path.rtrim n = n

/-- **Full names.** -/
theorem findToken_getFullName :
    S.tokens.findPath S.tokens.rootToken (S.getFullName t) = some (some t) ↔ S.Unblanked t := by
  rw [findPath_eq]
  rcases hp : S.tokens.parent t with _ | p
  · obtain rfl := S.parent_eq_none.1 hp
    have hname : S.getFullName S.tokens.rootToken = ['/'] := by
      rw [getFullName]
      split
      · rfl
      · next h =>
        rw [hp] at h
        cases h
    rw [hname, Unblanked, names_root]
    exact iff_of_true rfl ⟨nofun, nofun⟩
  rw [components_getFullName hp, walk_cons (by simp), Unblanked, names_child hp]
  show S.tokens.walk _ S.tokens.rootToken = some (some t) ↔ _
  rw [List.getLast?_append_of_ne_nil _ (List.cons_ne_nil _ _)]
  simp only [List.getLast?_singleton, Option.mem_some_iff, forall_eq']
  rw [← Path.map_ltrim_append]
  constructor
  · intro h
    obtain ⟨-, heq⟩ := names_of_walk h
    rw [names_root, List.nil_append, names_child hp] at heq
    exact (heq (by simp)).symm
  · intro h
    rw [h, walk_append (List.cons_ne_nil _ _), moves_names]
    exact congrArg some (step_name hp)

/-! ## Paths in two parts -/

/-- A path that does not start with a slash. -/
def Relative (path : List Char) : Prop := ∀ rest, trim path ≠ '/' :: rest

/-- Where `p` leads, a relative path `q` leads on to where the path of both leads. -/
def Composes (S : NamedTokens T) (t : T) (p : List Char) : Prop :=
  ∀ u, S.tokens.findPath t p = some (some u) → ∀ q, Relative q →
    S.tokens.findPath t (p ++ '/' :: q) = S.tokens.findPath u q

/-- What follows the last slash of `p` is not blank and does not end with a blank; or it
    is blank, and `p` leads to the root token. -/
def EndsInName (S : NamedTokens T) (t : T) (p : List Char) : Prop :=
  ∀ u, S.tokens.findPath t p = some (some u) →
    (Path.ltrim (Path.lastComponent p) ≠ [] ∧
        Path.rtrim (Path.ltrim (Path.lastComponent p)) = Path.ltrim (Path.lastComponent p)) ∨
      (Path.ltrim (Path.lastComponent p) = [] ∧ u = S.tokens.rootToken)

theorem step_ne_child {n : List Char} {children : List Char → Option T}
    (hchildren : S.tokens.children w = some children) (hu : children n = some u)
    (hn : Path.rtrim n ≠ n) : S.tokens.step w (Path.rtrim n) ≠ some u := by
  obtain ⟨hp, hname⟩ := S.parent_of_child hchildren hu
  have hlt := S.depth_parent hp
  intro h
  rw [Tokens.step] at h
  split at h
  · obtain rfl := Option.some.inj h
    omega
  · split at h
    · have hlt' := S.depth_parent h
      omega
    · rw [hchildren, Option.bind_some] at h
      exact hn ((S.parent_of_child hchildren h).2.symm.trans hname)

theorem relative_nil : Relative [] := fun _ h => by cases h

/-- **Paths in two parts.** -/
theorem composes_iff {p : List Char} : S.Composes t p ↔ S.EndsInName t p := by
  refine forall_congr' fun u => forall_congr' fun hu => ?_
  obtain ⟨cs, hp, hpq⟩ := Path.components_of_last p
  generalize Path.lastComponent p = c at hp hpq ⊢
  rw [findPath_eq, hp, walk_append (List.cons_ne_nil _ _), andThen_eq_some] at hu
  obtain ⟨w, hw, hu⟩ := hu
  have hu : S.tokens.step w (Path.rtrim (Path.ltrim c)) = some u := by
    rw [Path.rtrim_ltrim]
    exact Option.some.inj hu
  have hboth : ∀ q, S.tokens.findPath t (p ++ '/' :: q) =
      andThen (S.tokens.move w (Path.ltrim c)) (S.tokens.walk (Path.components q)) := by
    intro q
    rw [findPath_eq, hpq, walk_append (List.cons_ne_nil _ _), hw]
    exact walk_cons (Path.components_ne_nil q)
  simp only [hboth, findPath_eq]
  generalize Path.ltrim c = n at hu ⊢
  by_cases hempty : n = []
  · -- the path of both goes back to the root token
    subst hempty
    obtain rfl : w = u := by simpa [Tokens.step, Path.rtrim] using hu
    constructor
    · intro h
      have hroot := h [] relative_nil
      exact .inr ⟨rfl, (Option.some.inj (Option.some.inj hroot)).symm⟩
    · rintro (⟨h, -⟩ | ⟨-, rfl⟩) q -
      · exact (h rfl).elim
      · rfl
  by_cases hblank : Path.rtrim n = n
  · rw [hblank] at hu
    refine iff_of_true (fun q _ => ?_) (.inl ⟨hempty, hblank⟩)
    rw [move_of_step hempty hu]
    rfl
  · -- the name of another child is looked up
    refine iff_of_false (fun h => ?_) (by simp [hempty, hblank])
    have hname : IsName n := by
      refine ⟨hempty, ?_, ?_⟩
      · rintro rfl
        exact hblank rfl
      · rintro rfl
        exact hblank rfl
    have hroot := h [] relative_nil
    rw [show S.tokens.walk (Path.components []) u = some (some u) from rfl, andThen_eq_some,
      move_of_name hname] at hroot
    obtain ⟨v, hv, hvu⟩ := hroot
    obtain rfl : v = u := Option.some.inj (Option.some.inj hvu)
    obtain ⟨children, hchildren, hv⟩ := Option.map_eq_some_iff.1 hv
    exact step_ne_child hchildren hv hblank hu

/-! ## All paths -/

/-- A path does not throw, and finds nothing just if it leads nowhere. -/
def Finds (S : NamedTokens T) (t : T) (path : List Char) : Prop :=
  S.tokens.findPath t path ≠ none ∧
    (S.tokens.findPath t path = some none ↔ S.tokens.leadsTo t path = none)

/-- The path does not go on from a token without a map of children, and if it has empty
    components inside, its parts lead somewhere just if it leads somewhere. -/
def Straight (S : NamedTokens T) (t : T) (path : List Char) : Prop :=
  ¬ S.tokens.ThroughLeaf t (Path.components path) ∧
    (S.tokens.PartsLead t (Path.components path) ↔ (S.tokens.leadsTo t path).isSome = true)

theorem finds_iff {path : List Char} : S.Finds t path ↔ S.Straight t path := by
  rw [Finds, Straight, findPath_eq, ← walk_eq_none]
  refine and_congr_right fun h => ?_
  obtain ⟨r, hr⟩ := Option.ne_none_iff_exists'.1 h
  rw [← walk_isSome hr, hr, Option.some_inj, Option.isSome_iff_ne_none, Option.isSome_iff_ne_none]
  exact not_iff_not.symm

/-- **Token paths.** -/
theorem tokenPaths_iff (S : NamedTokens T) :
    (∀ t, S.tokens.findPath S.tokens.rootToken (S.getFullName t) = some (some t) ↔ S.Unblanked t) ∧
      (∀ t path, S.Finds t path ↔ S.Straight t path) ∧
      ∀ t p, Relative p → (S.Composes t p ↔ S.EndsInName t p) :=
  ⟨fun _ => findToken_getFullName, fun _ _ => finds_iff, fun _ _ _ => composes_iff⟩

end NamedTokens

/-- A root token with the children `a`, which has had no child, and `b` with a blank
    after its name. -/
def twoChildren : NamedTokens (Fin 3) where
  tokens := {
    rootToken := 0
    parent := fun t => if t = 0 then none else some 0
    children := fun t =>
      if t = 0 then some fun k => if k = ['a'] then some 1 else if k = ['b', ' '] then some 2 else none
      else none }
  name t := if t = 1 then ['a'] else ['b', ' ']
  depth t := t.val
  depth_parent := by decide
  parent_eq_none := by decide
  child_of_parent := by
    intro t p h
    dsimp only at h ⊢
    split at h
    · cases h
    · next ht =>
      obtain rfl := Option.some.inj h
      refine ⟨_, rfl, ?_⟩
      revert t
      decide
  parent_of_child := by
    intro p children c k hchildren hc
    dsimp only at hchildren ⊢
    split at hchildren
    · next hp =>
      obtain rfl := Option.some.inj hchildren
      subst hp
      dsimp only at hc
      split at hc
      · next hk =>
        obtain rfl := Option.some.inj hc
        exact ⟨rfl, hk.symm⟩
      · split at hc
        · next hk =>
          obtain rfl := Option.some.inj hc
          exact ⟨rfl, hk.symm⟩
        · cases hc
    · cases hchildren
  isName {t _} _ := by
    clear * -
    revert t
    decide

namespace NamedTokens

open Milestone.Tokens

/-- A full name that does not lead to its token; a path that throws; a path that leads
    nowhere and finds a token; two parts of a path that together lead elsewhere. -/
theorem twoChildren_paths :
    (twoChildren.getFullName 2 = ['/', 'b', ' '] ∧
        twoChildren.tokens.findPath 0 ['/', 'b', ' '] = some none) ∧
      twoChildren.tokens.findPath 1 ['x', '/', 'y'] = none ∧
      (twoChildren.tokens.leadsTo 0 ['a', '/', '/', 'a'] = none ∧
        twoChildren.tokens.findPath 0 ['a', '/', '/', 'a'] = some (some 1)) ∧
      twoChildren.tokens.findPath 1 [] = some (some 1) ∧
      twoChildren.tokens.findPath 1 ['a'] = some none ∧
      twoChildren.tokens.findPath 1 ([] ++ '/' :: ['a']) = some (some 1) := by
  refine ⟨⟨?_, ?_⟩, ?_, ⟨?_, ?_⟩, ?_, ?_, ?_⟩
  · exact getFullName_eq (p := 0) rfl
  all_goals first | decide | (rw [findPath_eq]; decide)

end NamedTokens

end Milestone

end Jbpm
