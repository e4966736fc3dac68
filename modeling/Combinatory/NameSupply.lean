import Combinatory.Error
import Combinatory.Term.Names

/-!
# Name supplies

An endless sequence of distinct names, `a` to `z`, then `a2` to `z2`, `a3` and so on, from which names are
drawn in order. A supply skips the names that it has to avoid.

## The model

`NameSupply.nameAt` is the sequence. A supply is a position in it and a list of names to avoid. Drawing looks
for the first position that is not avoided; of `avoid.length + 1` positions one after the other at least one
is free, since the names of the sequence differ, so the search is bounded by the length of the list.

`Fresh α` is a computation that draws names and may fail. A failing computation keeps the names that it has
drawn.
-/

namespace Combinatory

/-- A position in the sequence of names, and names that are never drawn. -/
structure NameSupply where
  /-- The position of the next candidate. -/
  next : Nat := 0
  /-- The names to avoid. -/
  avoid : List String := []
  deriving DecidableEq, Repr

namespace NameSupply

/-- The letter with the given index modulo 26. -/
def letter (i : Nat) : Char := Char.ofNat ('a'.toNat + i % 26)

/-- The name at a position: a letter, followed by the number of the round from the second round on. -/
def nameAt (i : Nat) : String :=
  if i / 26 = 0 then String.singleton (letter i) else String.singleton (letter i) ++ toString (i / 26 + 1)

/-- The supply at the start of the sequence that avoids the given names. -/
def avoiding (names : List String) : NameSupply := { avoid := names }

/-- The first position from `i` on that is free, looking at no more than `bound` candidates. -/
def firstFree (avoid : List String) : (bound i : Nat) → Nat
  | 0, i => i
  | bound + 1, i => if nameAt i ∈ avoid then firstFree avoid bound (i + 1) else i

/-- The next name, and the supply after it. -/
def draw (s : NameSupply) : String × NameSupply :=
  let i := firstFree s.avoid s.avoid.length s.next
  (nameAt i, { s with next := i + 1 })

/-- The next `n` names, and the supply after them. -/
def drawMany (s : NameSupply) : Nat → List String × NameSupply
  | 0 => ([], s)
  | n + 1 =>
    let (name, s) := s.draw
    let (names, s) := s.drawMany n
    (name :: names, s)

/-- The next name, without drawing it. -/
def peek (s : NameSupply) : String := s.draw.1

/-- The supply back at the start of the sequence. -/
def reset (s : NameSupply) : NameSupply := { s with next := 0 }

/-- The supply that also avoids the given name. -/
def reserve (s : NameSupply) (name : String) : NameSupply := { s with avoid := s.avoid.insert name }

/-! ### Drawn names are new -/

theorem letter_inj {i j : Nat} (h : letter i = letter j) : i % 26 = j % 26 := by
  have distinct : ∀ a b : Fin 26, Char.ofNat (97 + a) = Char.ofNat (97 + b) → a = b := by decide
  have := distinct ⟨i % 26, by omega⟩ ⟨j % 26, by omega⟩ h
  exact congrArg Fin.val this

theorem toString_inj {m n : Nat} (h : toString m = toString n) : m = n := by
  have hl := congrArg (fun s => Nat.ofDigitChars 10 (String.toList s) 0) h
  simpa [Nat.toString_eq_ofList_toDigits, Nat.ofDigitChars_toDigits] using hl

/-- The names of the sequence differ. -/
theorem nameAt_inj {i j : Nat} (h : nameAt i = nameAt j) : i = j := by
  have toString_ne (n : Nat) : toString n ≠ "" := by
    intro hn
    have := congrArg String.length hn
    simp at this
  have key : letter i = letter j ∧ i / 26 = j / 26 := by
    have unroll (k : Nat) : nameAt k =
        String.singleton (letter k) ++ if k / 26 = 0 then "" else toString (k / 26 + 1) := by
      unfold nameAt; split <;> simp
    rw [unroll, unroll, String.singleton_append_inj] at h
    refine ⟨h.1, ?_⟩
    have h2 := h.2
    split at h2 <;> split at h2
    · omega
    · exact absurd h2.symm (toString_ne _)
    · exact absurd h2 (toString_ne _)
    · have := toString_inj h2; omega
  have := letter_inj key.1
  omega

theorem firstFree_spec (avoid : List String) (bound i : Nat) :
    i ≤ firstFree avoid bound i ∧ firstFree avoid bound i ≤ i + bound ∧
      (∀ k, i ≤ k → k < firstFree avoid bound i → nameAt k ∈ avoid) ∧
      (firstFree avoid bound i < i + bound → nameAt (firstFree avoid bound i) ∉ avoid) := by
  induction bound generalizing i with
  | zero => simp [firstFree]; omega
  | succ bound ih =>
    simp only [firstFree]
    split
    · next hi =>
      obtain ⟨h1, h2, h3, h4⟩ := ih (i + 1)
      refine ⟨by omega, by omega, ?_, fun h => h4 (by omega)⟩
      intro k hk hlt
      by_cases hki : k = i
      · subst hki; exact hi
      · exact h3 k (by omega) hlt
    · next hi => exact ⟨by omega, by omega, by omega, fun _ => hi⟩

/-- The candidates cannot all be avoided, since there is one more of them than there are names to avoid. -/
theorem nameAt_firstFree_not_mem (avoid : List String) (i : Nat) :
    nameAt (firstFree avoid avoid.length i) ∉ avoid := by
  obtain ⟨h1, h2, h3, h4⟩ := firstFree_spec avoid avoid.length i
  intro hmem
  have hlast : firstFree avoid avoid.length i = i + avoid.length := by
    by_cases h : firstFree avoid avoid.length i < i + avoid.length
    · exact absurd hmem (h4 h)
    · omega
  have hnodup : ((List.range (avoid.length + 1)).map fun k => nameAt (i + k)).Nodup := by
    rw [List.nodup_iff_pairwise_ne, List.pairwise_map]
    refine List.pairwise_lt_range.imp ?_
    intro a b hab hne
    have := nameAt_inj hne
    omega
  have hsub : ((List.range (avoid.length + 1)).map fun k => nameAt (i + k)) ⊆ avoid := by
    intro n hn
    obtain ⟨k, hk, rfl⟩ := List.mem_map.1 hn
    have hk := List.mem_range.1 hk
    by_cases hki : k = avoid.length
    · subst hki; rw [← hlast]; exact hmem
    · exact h3 (i + k) (by omega) (by omega)
  have := hnodup.length_le_of_subset hsub
  rw [List.length_map, List.length_range] at this
  omega

theorem draw_not_mem (s : NameSupply) : s.draw.1 ∉ s.avoid := nameAt_firstFree_not_mem s.avoid s.next

@[simp] theorem avoid_draw (s : NameSupply) : s.draw.2.avoid = s.avoid := rfl

theorem drawMany_not_mem {s : NameSupply} {n : Nat} {name : String} (h : name ∈ (s.drawMany n).1) :
    name ∉ s.avoid := by
  induction n generalizing s with
  | zero => simp [drawMany] at h
  | succ n ih =>
    simp only [drawMany, List.mem_cons] at h
    rcases h with rfl | h
    · exact s.draw_not_mem
    · exact @ih s.draw.2 h

@[simp] theorem length_drawMany (s : NameSupply) (n : Nat) : (s.drawMany n).1.length = n := by
  induction n generalizing s with
  | zero => rfl
  | succ n ih => simp [drawMany, ih]

end NameSupply

/-- Computations that draw names and may fail. -/
abbrev Fresh (α : Type) : Type := ExceptT Error (StateM NameSupply) α

namespace Fresh

/-- Draws one name. -/
def name : Fresh String := modifyGet NameSupply.draw

/-- Draws the given number of names. -/
def names (n : Nat) : Fresh (List String) := modifyGet fun s => s.drawMany n

/-- The outcome of a computation and the supply that it leaves. -/
def runWith {α : Type} (s : NameSupply) (x : Fresh α) : Except Error α × NameSupply := x.run.run s

end Fresh

end Combinatory
