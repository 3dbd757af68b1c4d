/-!
# Sets of names

A set of names is kept as the increasing list of its members, in the
order of their code points. A set therefore has one representation:
`NameSet.ext_contains` says that two sets with the same members are
equal, and `NameSet.contains_ofList` that a list may name its members in
any order and as often as it likes.
-/

namespace Adorn

/-- Puts a name in its place in an increasing list, unless it is there. -/
def insertName (n : String) : List String → List String
  | [] => [n]
  | m :: ms =>
    if n < m then n :: m :: ms
    else if n = m then m :: ms
    else m :: insertName n ms

theorem mem_insertName {n k : String} {ms : List String} :
    k ∈ insertName n ms ↔ k = n ∨ k ∈ ms := by
  induction ms with
  | nil => simp [insertName]
  | cons m ms ih =>
      unfold insertName
      split
      · simp
      · split
        · rename_i heq
          subst heq
          simp
        · simp only [List.mem_cons, ih]
          exact or_left_comm

theorem pairwise_insertName {n : String} {ms : List String} (h : ms.Pairwise (· < ·)) :
    (insertName n ms).Pairwise (· < ·) := by
  induction ms with
  | nil => simp [insertName]
  | cons m ms ih =>
      obtain ⟨hm, hms⟩ := List.pairwise_cons.mp h
      unfold insertName
      split
      · rename_i hlt
        refine List.pairwise_cons.mpr ⟨fun k hk => ?_, h⟩
        rcases List.mem_cons.mp hk with rfl | hk
        · exact hlt
        · exact String.lt_trans hlt (hm k hk)
      · rename_i hnlt
        split
        · exact h
        · rename_i hne
          refine List.pairwise_cons.mpr ⟨fun k hk => ?_, ih hms⟩
          rcases mem_insertName.mp hk with rfl | hk
          · rcases String.le_total m k with hle | hle
            · exact String.not_le.mp fun hkm => hne (String.le_antisymm hkm hle)
            · exact absurd (String.not_le.mp fun hmk => hne (String.le_antisymm hle hmk)) hnlt
          · exact hm k hk

/-- A finite set of names. -/
structure NameSet where
  toList : List String
  increasing : toList.Pairwise (· < ·)
  deriving DecidableEq

namespace NameSet

def empty : NameSet :=
  ⟨[], .nil⟩

def insert (s : NameSet) (n : String) : NameSet :=
  ⟨insertName n s.toList, pairwise_insertName s.increasing⟩

def ofList (ns : List String) : NameSet :=
  ns.foldl insert empty

def contains (s : NameSet) (n : String) : Bool :=
  s.toList.contains n

@[simp] theorem contains_empty (k : String) : empty.contains k = false := rfl

@[simp] theorem contains_insert (s : NameSet) (n k : String) :
    (s.insert n).contains k = (k == n || s.contains k) := by
  rw [Bool.eq_iff_iff]
  simp [contains, insert, mem_insertName]

theorem contains_foldl_insert (ns : List String) (s : NameSet) (k : String) :
    (ns.foldl insert s).contains k = (ns.contains k || s.contains k) := by
  induction ns generalizing s with
  | nil => simp
  | cons n ns ih =>
      rw [List.foldl_cons, ih, contains_insert, List.contains_cons]
      rw [← Bool.or_assoc, Bool.or_comm (ns.contains k)]

/-- The members of a set are those of the list it was made from. -/
@[simp] theorem contains_ofList (ns : List String) (k : String) :
    (ofList ns).contains k = ns.contains k := by
  rw [ofList, contains_foldl_insert, contains_empty, Bool.or_false]

theorem eq_of_increasing : {xs ys : List String} → xs.Pairwise (· < ·) → ys.Pairwise (· < ·) →
    (∀ k, k ∈ xs ↔ k ∈ ys) → xs = ys
  | [], [], _, _, _ => rfl
  | [], y :: ys, _, _, h => absurd ((h y).mpr (List.mem_cons_self ..)) (List.not_mem_nil)
  | x :: xs, [], _, _, h => absurd ((h x).mp (List.mem_cons_self ..)) (List.not_mem_nil)
  | x :: xs, y :: ys, hx, hy, h => by
      obtain ⟨hxs, hxt⟩ := List.pairwise_cons.mp hx
      obtain ⟨hys, hyt⟩ := List.pairwise_cons.mp hy
      have hxy : x = y := by
        rcases List.mem_cons.mp ((h x).mp (List.mem_cons_self ..)) with heq | hmem
        · exact heq
        · rcases List.mem_cons.mp ((h y).mpr (List.mem_cons_self ..)) with heq | hmem'
          · exact heq.symm
          · exact absurd (String.lt_trans (hxs y hmem') (hys x hmem)) (String.lt_irrefl x)
      subst hxy
      refine congrArg (x :: ·) (eq_of_increasing hxt hyt fun k => ?_)
      have hk := h k
      simp only [List.mem_cons] at hk
      constructor
      · intro hmem
        rcases hk.mp (Or.inr hmem) with rfl | hmem'
        · exact absurd (hxs k hmem) (String.lt_irrefl k)
        · exact hmem'
      · intro hmem
        rcases hk.mpr (Or.inr hmem) with rfl | hmem'
        · exact absurd (hys k hmem) (String.lt_irrefl k)
        · exact hmem'

/-- Two sets with the same members are equal. -/
theorem ext_contains {s t : NameSet} (h : ∀ k, s.contains k = t.contains k) : s = t := by
  obtain ⟨xs, hxs⟩ := s
  obtain ⟨ys, hys⟩ := t
  have hmem : ∀ k, k ∈ xs ↔ k ∈ ys := fun k => by
    have hk := h k
    rw [Bool.eq_iff_iff] at hk
    simpa [contains] using hk
  cases eq_of_increasing hxs hys hmem
  rfl

end NameSet

end Adorn
