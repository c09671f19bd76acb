/-
  The components of a path: the strings between its slashes, without the blanks
  before each of them and after the last.

  * `rtrim_append`: a slash stops the blanks on both sides;
  * `ltrim_append_of_blank`, `rtrim_append_of_not_blank` and their counterparts: what is cut off two
    strings;
  * `components_append`, `components_of_notMem`: the components of a path of two
    parts, and of a single component.
-/
import Mathlib.Data.List.DropRight

namespace Lib

namespace Path

def ltrim (s : List Char) : List Char := s.dropWhile (· ≤ ' ')

def rtrim (s : List Char) : List Char := s.rdropWhile (· ≤ ' ')

variable {s p q : List Char} {c : Char}

theorem ltrim_cons_of_blank (h : c ≤ ' ') : ltrim (c :: s) = ltrim s :=
  List.dropWhile_cons_of_pos (by simpa using h)

theorem ltrim_cons_of_not_blank (h : ¬ c ≤ ' ') : ltrim (c :: s) = c :: s :=
  List.dropWhile_cons_of_neg (by simpa using h)

theorem rtrim_append (h : ¬ c ≤ ' ') (p q : List Char) : rtrim (p ++ c :: q) = p ++ c :: rtrim q := by
  rw [rtrim, List.rdropWhile, List.reverse_append, List.reverse_cons, List.append_assoc,
    List.dropWhile_append]
  have hc : ([c] ++ p.reverse).dropWhile (· ≤ ' ') = [c] ++ p.reverse :=
    List.dropWhile_cons_of_neg (by simpa using h)
  rw [hc, rtrim, List.rdropWhile]
  split
  · next hq =>
    rw [List.isEmpty_iff.1 hq]
    simp
  · simp

theorem ltrim_append_of_blank (h : ∀ c ∈ p, c ≤ ' ') : ltrim (p ++ q) = ltrim q :=
  List.dropWhile_append_of_pos fun c hc => decide_eq_true (h c hc)

theorem rtrim_append_of_blank (h : ∀ c ∈ q, c ≤ ' ') : rtrim (p ++ q) = rtrim p := by
  rw [rtrim, List.rdropWhile, List.reverse_append, List.dropWhile_append_of_pos, rtrim,
    List.rdropWhile]
  exact fun c hc => decide_eq_true (h c (List.mem_reverse.1 hc))

theorem ltrim_append_of_not_blank (h : ∃ c ∈ p, ¬ c ≤ ' ') : ltrim (p ++ q) = ltrim p ++ q := by
  rw [ltrim, List.dropWhile_append, if_neg, ltrim]
  simpa using h

theorem rtrim_append_of_not_blank (h : ∃ c ∈ q, ¬ c ≤ ' ') : rtrim (p ++ q) = p ++ rtrim q := by
  obtain ⟨c, hc, hblank⟩ := h
  obtain ⟨q₁, q₂, rfl⟩ := List.append_of_mem hc
  rw [← List.append_assoc, rtrim_append hblank, rtrim_append hblank, List.append_assoc]

theorem rtrim_cons_of_blank (h : c ≤ ' ') :
    rtrim (c :: s) = if rtrim s = [] then [] else c :: rtrim s := by
  rw [rtrim, List.rdropWhile, List.reverse_cons, List.dropWhile_append, rtrim, List.rdropWhile]
  have hc : [c].dropWhile (· ≤ ' ') = [] := List.dropWhile_cons_of_pos (by simpa using h)
  simp only [List.isEmpty_iff, List.reverse_eq_nil_iff, hc]
  split
  · rfl
  · rw [List.reverse_append]
    rfl

/-- Blanks are cut off on either side first. -/
theorem rtrim_ltrim (s : List Char) : rtrim (ltrim s) = ltrim (rtrim s) := by
  induction s with
  | nil => rfl
  | cons c s ih =>
    by_cases h : c ≤ ' '
    · rw [ltrim_cons_of_blank h, ih, rtrim_cons_of_blank h]
      split
      · next hs => rw [hs]
      · rw [ltrim_cons_of_blank h]
    · have hc := rtrim_append h [] s
      rw [List.nil_append, List.nil_append] at hc
      rw [ltrim_cons_of_not_blank h, hc, ltrim_cons_of_not_blank h]

theorem rtrim_rtrim (s : List Char) : rtrim (rtrim s) = rtrim s :=
  List.rdropWhile_idempotent (· ≤ ' ') s

theorem ltrim_ltrim (s : List Char) : ltrim (ltrim s) = ltrim s := List.dropWhile_idempotent ..

/-- Nothing is cut off just if nothing is on either side. -/
theorem ltrim_rtrim_eq_self : ltrim (rtrim s) = s ↔ ltrim s = s ∧ rtrim s = s := by
  constructor
  · intro h
    have hr : rtrim s = s := by
      calc rtrim s = rtrim (ltrim (rtrim s)) := by rw [h]
        _ = ltrim (rtrim s) := by rw [rtrim_ltrim, rtrim_rtrim]
        _ = s := h
    exact ⟨by rwa [hr] at h, hr⟩
  · rintro ⟨hl, hr⟩
    rw [hr, hl]

/-- Names that stay as they are as components of a path. -/
theorem map_ltrim_append {ns : List (List Char)} {n : List Char} :
    ns.map ltrim ++ [ltrim (rtrim n)] = ns ++ [n] ↔
      (∀ m ∈ ns ++ [n], ltrim m = m) ∧ rtrim n = n := by
  have hmap : ns.map ltrim = ns ↔ ∀ m ∈ ns, ltrim m = m := by
    rw [← List.map_inj_left, List.map_id']
  constructor
  · intro h
    obtain ⟨hns, hn⟩ := List.append_inj' h rfl
    obtain ⟨hl, hr⟩ := ltrim_rtrim_eq_self.1 (List.singleton_inj.1 hn)
    refine ⟨fun m hm => ?_, hr⟩
    rcases List.mem_append.1 hm with hm | hm
    · exact hmap.1 hns m hm
    · rw [List.mem_singleton.1 hm, hl]
  · rintro ⟨hl, hr⟩
    rw [hmap.2 fun m hm => hl m (List.mem_append_left _ hm),
      ltrim_rtrim_eq_self.2 ⟨hl n (List.mem_append_right _ (List.mem_singleton_self n)), hr⟩]

/-- The beginning of a string without leading blanks has none. -/
theorem ltrim_of_append (h : ltrim (p ++ q) = p ++ q) : ltrim p = p := by
  cases p with
  | nil => rfl
  | cons c p =>
    by_cases hc : c ≤ ' '
    · rw [List.cons_append, ltrim_cons_of_blank hc] at h
      have hlen := (List.dropWhile_sublist (l := p ++ q) (fun c => decide (c ≤ ' '))).length_le
      have heq := congrArg List.length h
      rw [ltrim, List.length_cons] at heq
      omega
    · exact ltrim_cons_of_not_blank hc

theorem mem_of_mem_rtrim (h : c ∈ rtrim s) : c ∈ s := (List.rdropWhile_prefix _ _).subset h

/-- Only the first component notices what is cut off before a path. -/
theorem splitOn_ltrim (s : List Char) :
    ((ltrim s).splitOn '/').map ltrim = (s.splitOn '/').map ltrim := by
  induction s with
  | nil => rfl
  | cons c s ih =>
    by_cases h : c ≤ ' '
    · have hc : ¬ c = '/' := by
        rintro rfl
        exact absurd h (by decide)
      rw [ltrim_cons_of_blank h, ih, List.splitOn_cons_eq_if_modifyHead, if_neg (by simpa using hc)]
      rcases s.splitOn '/' with _ | ⟨w, ws⟩
      · rfl
      · rw [List.modifyHead_cons, List.map_cons, List.map_cons, ltrim_cons_of_blank h]
    · rw [ltrim_cons_of_not_blank h]

def components (path : List Char) : List (List Char) := ((rtrim path).splitOn '/').map ltrim

theorem components_ne_nil (path : List Char) : components path ≠ [] := by
  simp [components]

theorem components_trim (s : List Char) : components (rtrim (ltrim s)) = components s := by
  rw [components, rtrim_rtrim, rtrim_ltrim, splitOn_ltrim, components]

theorem components_append (p q : List Char) :
    components (p ++ '/' :: q) = (p.splitOn '/').map ltrim ++ components q := by
  rw [components, rtrim_append (by decide), List.splitOn_append_cons_self, List.map_append, components]

theorem components_of_notMem (h : '/' ∉ s) : components s = [ltrim (rtrim s)] := by
  rw [components, List.splitOn_eq_singleton fun hs => h (mem_of_mem_rtrim hs)]
  rfl

/-- A path has a last slash, or none. -/
theorem exists_last_slash (s : List Char) :
    '/' ∉ s ∨ ∃ a c, s = a ++ '/' :: c ∧ '/' ∉ c := by
  induction s with
  | nil => exact .inl List.not_mem_nil
  | cons x s ih =>
    rcases ih with h | ⟨a, c, rfl, hc⟩
    · by_cases hx : x = '/'
      · exact .inr ⟨[], s, by rw [hx, List.nil_append], h⟩
      · exact .inl fun hmem => (List.mem_cons.1 hmem).elim (fun he => hx he.symm) h
    · exact .inr ⟨x :: a, c, rfl, hc⟩

/-- The string after the last slash of a path. -/
def lastComponent (path : List Char) : List Char :=
  (path.splitOn '/').getLast (List.splitOn_ne_nil _ _)

/-- What stands before the last slash is the same whether the path ends there or goes on. -/
theorem components_of_last (p : List Char) :
    ∃ cs, components p = cs ++ [ltrim (rtrim (lastComponent p))] ∧
      ∀ q, components (p ++ '/' :: q) = cs ++ ltrim (lastComponent p) :: components q := by
  rcases exists_last_slash p with h | ⟨a, c, rfl, hc⟩
  · have hlast : lastComponent p = p := by
      simp [lastComponent, List.splitOn_eq_singleton h]
    refine ⟨[], by rw [hlast, components_of_notMem h, List.nil_append], fun q => ?_⟩
    rw [components_append, List.splitOn_eq_singleton h, hlast]
    rfl
  · have hsplit : (a ++ '/' :: c).splitOn '/' = a.splitOn '/' ++ [c] := by
      rw [List.splitOn_append_cons_self, List.splitOn_eq_singleton hc]
    have hlast : lastComponent (a ++ '/' :: c) = c := by
      simp [lastComponent, hsplit]
    refine ⟨(a.splitOn '/').map ltrim, ?_, fun q => ?_⟩
    · rw [components_append, components_of_notMem hc, hlast]
    · rw [components_append, hsplit, List.map_append, hlast, List.append_assoc]
      rfl

/-- A string with a slash, up to the first and after it. -/
theorem append_of_dropWhile {rest : List Char} (h : s.dropWhile (· ≠ '/') = c :: rest) :
    '/' ∉ s.takeWhile (· ≠ '/') ∧ s = s.takeWhile (· ≠ '/') ++ '/' :: rest := by
  refine ⟨fun hmem => absurd (List.mem_takeWhile_imp hmem) (by decide), ?_⟩
  have hc : c = '/' := by
    have hhead := List.head?_dropWhile_not (· ≠ '/') s
    rw [h] at hhead
    simpa using hhead
  have happ := List.takeWhile_append_dropWhile (p := (· ≠ '/')) (l := s)
  rw [h, hc] at happ
  exact happ.symm

end Path

end Lib
