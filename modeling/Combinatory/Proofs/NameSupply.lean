import Combinatory.NameSupply
import Mathlib.Data.List.Nodup

/-!
# Drawn names

A name that has been drawn, or that is avoided, is never drawn again.

## The model

`NameSupply.Used s n` says that `s` will not draw `n`: it is avoided, or stands in front of the position of `s`
in the sequence. Drawing keeps used names used and makes the drawn name one of them; both follow from
`NameSupply.draw_eq`, which says all that drawing does.

`NameSupply.Gives s ns s'` says that `ns` are the next names of `s`, and that `s'` is the supply after them. They
differ from each other and from all names that `s` has passed. `NameSupply.Supplies` says the same of names in any
order.

Two computations `Fresh.Agree` if they succeed alike and leave the same supply.

`Fresh.Ensures` is a specification of a computation that draws names: if it succeeds, the supply has only moved
on (`NameSupply.Precedes`), and the result is as it should be; if it fails, the error is as it should be. There is
a rule for each way to build computations.
-/

namespace Combinatory

namespace NameSupply

/-- The name is avoided or has been passed. -/
def Used (s : NameSupply) (n : String) : Prop := n ∈ s.avoid ∨ ∃ j < s.next, n = nameAt j

/-- Drawing moves the position past the name that it takes. -/
theorem draw_eq (s : NameSupply) :
    ∃ i, s.next ≤ i ∧ nameAt i ∉ s.avoid ∧ s.draw = (nameAt i, { s with next := i + 1 }) :=
  ⟨_, (firstFree_spec s.avoid s.avoid.length s.next).1, s.draw_not_mem, rfl⟩

theorem not_used_draw (s : NameSupply) : ¬s.Used s.draw.1 := by
  obtain ⟨i, hi, havoid, h⟩ := s.draw_eq
  rw [h]
  rintro (hmem | ⟨j, hj, hij⟩)
  · exact havoid hmem
  · have := nameAt_inj hij
    omega

/-- There is a name that is not in the list. -/
theorem exists_not_mem (names : List String) : ∃ n, n ∉ names := ⟨_, (avoiding names).draw_not_mem⟩

theorem used_draw_self (s : NameSupply) : s.draw.2.Used s.draw.1 := by
  obtain ⟨i, -, -, h⟩ := s.draw_eq
  rw [h]
  exact .inr ⟨i, Nat.lt_succ_self i, rfl⟩

/-- The second supply is the first one after it has moved on. -/
structure Precedes (s s' : NameSupply) : Prop where
  /-- The same names are avoided. -/
  avoid_eq : s'.avoid = s.avoid
  /-- The position has not gone back. -/
  next_le : s.next ≤ s'.next

theorem Precedes.refl (s : NameSupply) : s.Precedes s := ⟨rfl, Nat.le_refl _⟩

theorem Precedes.trans {s s' s'' : NameSupply} (h : s.Precedes s') (h' : s'.Precedes s'') : s.Precedes s'' :=
  ⟨h'.avoid_eq.trans h.avoid_eq, Nat.le_trans h.next_le h'.next_le⟩

theorem precedes_draw (s : NameSupply) : s.Precedes s.draw.2 := by
  obtain ⟨i, hi, -, h⟩ := s.draw_eq
  rw [h]
  exact ⟨rfl, Nat.le_succ_of_le hi⟩

/-- Used names stay used. -/
theorem Used.mono {s s' : NameSupply} {n : String} (h : s.Used n) (hs : s.Precedes s') : s'.Used n := by
  rcases h with h | ⟨j, hj, rfl⟩
  · exact .inl (hs.avoid_eq ▸ h)
  · exact .inr ⟨j, Nat.lt_of_lt_of_le hj hs.next_le, rfl⟩

theorem not_used_of_mem_drawMany {s : NameSupply} {k : Nat} {n : String} (h : n ∈ (s.drawMany k).1) :
    ¬s.Used n := by
  induction k generalizing s with
  | zero => simp [drawMany] at h
  | succ k ih =>
    simp only [drawMany, List.mem_cons] at h
    rcases h with rfl | h
    · exact s.not_used_draw
    · exact fun hu => ih (s := s.draw.2) h (hu.mono s.precedes_draw)

/-- Names drawn one after the other differ. -/
theorem nodup_drawMany (s : NameSupply) (k : Nat) : (s.drawMany k).1.Nodup := by
  induction k generalizing s with
  | zero => exact List.nodup_nil
  | succ k ih =>
    simp only [drawMany]
    refine List.nodup_cons.2 ⟨?_, ih s.draw.2⟩
    intro h
    exact not_used_of_mem_drawMany (s := s.draw.2) h s.used_draw_self

theorem precedes_drawMany (s : NameSupply) (k : Nat) : s.Precedes (s.drawMany k).2 := by
  induction k generalizing s with
  | zero => exact .refl s
  | succ k ih => exact s.precedes_draw.trans (ih s.draw.2)

theorem used_of_mem_drawMany {s : NameSupply} {k : Nat} {n : String} (h : n ∈ (s.drawMany k).1) :
    (s.drawMany k).2.Used n := by
  induction k generalizing s with
  | zero => simp [drawMany] at h
  | succ k ih =>
    simp only [drawMany, List.mem_cons] at h
    rcases h with rfl | h
    · exact s.used_draw_self.mono (precedes_drawMany _ k)
    · exact ih (s := s.draw.2) h

theorem drawMany_add (s : NameSupply) (k l : Nat) : s.drawMany (k + l) =
    ((s.drawMany k).1 ++ ((s.drawMany k).2.drawMany l).1, ((s.drawMany k).2.drawMany l).2) := by
  induction k generalizing s with
  | zero => rw [Nat.zero_add]; rfl
  | succ k ih =>
    rw [Nat.succ_add]
    simp only [drawMany, ih, List.cons_append]

/-- The names are the next ones of `s`, and `s'` is the supply after them. -/
def Gives (s : NameSupply) (ns : List String) (s' : NameSupply) : Prop := s.drawMany ns.length = (ns, s')

namespace Gives

variable {s s' s'' : NameSupply} {ns ms : List String}

theorem nil : s.Gives [] s := rfl

theorem draw : s.Gives [s.draw.1] s.draw.2 := rfl

theorem append (h : s.Gives ns s') (h' : s'.Gives ms s'') : s.Gives (ns ++ ms) s'' := by
  unfold Gives at h h' ⊢
  rw [List.length_append, drawMany_add, h, h']

theorem nodup (h : s.Gives ns s') : ns.Nodup := by
  have hd := s.nodup_drawMany ns.length
  rwa [h] at hd

theorem not_used (h : s.Gives ns s') {n : String} (hn : n ∈ ns) : ¬s.Used n :=
  not_used_of_mem_drawMany (k := ns.length) (by rwa [h])

theorem used (h : s.Gives ns s') {n : String} (hn : n ∈ ns) : s'.Used n := by
  have hu := used_of_mem_drawMany (s := s) (k := ns.length) (n := n) (by rwa [h])
  rwa [h] at hu

theorem precedes (h : s.Gives ns s') : s.Precedes s' := by
  have hp := s.precedes_drawMany ns.length
  rwa [h] at hp

/-- How many names are drawn determines which. -/
theorem eq_of_length_eq (h : s.Gives ns s') (h' : s.Gives ms s'') (hl : ns.length = ms.length) : ns = ms := by
  unfold Gives at h h'
  rw [hl, h'] at h
  exact (congrArg Prod.fst h).symm

end Gives

/-- The names are the next ones of `s` in some order, and `s'` is the supply after them. -/
def Supplies (s : NameSupply) (ns : List String) (s' : NameSupply) : Prop := ∃ ms, s.Gives ms s' ∧ ms.Perm ns

namespace Supplies

variable {s s' s'' : NameSupply} {ns ms : List String}

theorem nil : s.Supplies [] s := ⟨[], .nil, .nil⟩

theorem perm (h : s.Supplies ns s') (hp : ns.Perm ms) : s.Supplies ms s' := by
  obtain ⟨ks, hg, hk⟩ := h
  exact ⟨ks, hg, hk.trans hp⟩

theorem append (h : s.Supplies ns s') (h' : s'.Supplies ms s'') : s.Supplies (ns ++ ms) s'' := by
  obtain ⟨ks, hg, hk⟩ := h
  obtain ⟨ls, hg', hl⟩ := h'
  exact ⟨ks ++ ls, hg.append hg', hk.append hl⟩

theorem cons {n : String} (h : s.Supplies [n] s') (h' : s'.Supplies ns s'') : s.Supplies (n :: ns) s'' :=
  h.append h'

theorem precedes (h : s.Supplies ns s') : s.Precedes s' := by
  obtain ⟨ks, hg, -⟩ := h
  exact hg.precedes

theorem nodup (h : s.Supplies ns s') : ns.Nodup := by
  obtain ⟨ks, hg, hk⟩ := h
  exact hk.nodup_iff.1 hg.nodup

theorem not_used (h : s.Supplies ns s') {n : String} (hn : n ∈ ns) : ¬s.Used n := by
  obtain ⟨ks, hg, hk⟩ := h
  exact hg.not_used (hk.mem_iff.2 hn)

end Supplies

end NameSupply

namespace Fresh

open NameSupply

variable {α β : Type} {s : NameSupply}

theorem runWith_bind (x : Fresh α) (k : α → Fresh β) : (x >>= k).runWith s =
    match x.runWith s with
    | (.ok a, s') => (k a).runWith s'
    | (.error e, s') => (.error e, s') := by
  simp only [runWith, ExceptT.run_bind, StateT.run_bind]
  cases x.run.run s with
  | mk r s' => cases r <;> rfl

/-- A computation in two parts succeeds if both parts do. -/
theorem runWith_bind_eq_ok {x : Fresh α} {k : α → Fresh β} {b : β} {s' : NameSupply} :
    (x >>= k).runWith s = (.ok b, s') ↔ ∃ a s₁, x.runWith s = (.ok a, s₁) ∧ (k a).runWith s₁ = (.ok b, s') := by
  rw [runWith_bind]
  rcases x.runWith s with ⟨e | a, s₁⟩
  · simp
  · simp

/-- The two computations succeed from the same supplies, with the same results, and leave the same supplies. -/
def Agree (x y : Fresh α) : Prop := ∀ s a s', x.runWith s = (.ok a, s') ↔ y.runWith s = (.ok a, s')

namespace Agree

theorem refl (x : Fresh α) : Agree x x := fun _ _ _ => Iff.rfl

theorem throw (e e' : Error) : Agree (MonadExcept.throw e : Fresh α) (MonadExcept.throw e') := by
  intro s a s'
  constructor <;> intro h <;> cases h

theorem bind {x y : Fresh α} {k l : α → Fresh β} (h : Agree x y) (hk : ∀ a, Agree (k a) (l a)) :
    Agree (x >>= k) (y >>= l) := by
  intro s b s'
  rw [runWith_bind_eq_ok, runWith_bind_eq_ok]
  exact exists_congr fun a => exists_congr fun s₁ => and_congr (h s a s₁) (hk a s₁ b s')

end Agree

/-- If the computation succeeds from `s`, then the supply has only moved on, and `Q` holds. If it fails, then `E`
holds of the error. -/
def Ensures (s : NameSupply) (x : Fresh α) (Q : α → NameSupply → Prop) (E : Error → Prop) : Prop :=
  match x.runWith s with
  | (.ok a, s') => s.Precedes s' ∧ Q a s'
  | (.error e, _) => E e

namespace Ensures

variable {x : Fresh α} {P Q : α → NameSupply → Prop} {E F : Error → Prop}

theorem of_ok {a : α} {s' : NameSupply} (hx : Ensures s x Q E) (h : x.runWith s = (.ok a, s')) :
    s.Precedes s' ∧ Q a s' := by
  rwa [Ensures, h] at hx

theorem of_error {e : Error} {s' : NameSupply} (hx : Ensures s x Q E) (h : x.runWith s = (.error e, s')) :
    E e := by
  rwa [Ensures, h] at hx

theorem pure {a : α} (h : Q a s) : Ensures s (Pure.pure a) Q E := ⟨.refl s, h⟩

theorem throw {e : Error} (h : E e) : Ensures s (MonadExcept.throw e) Q E := h

theorem bind {k : α → Fresh β} {R : β → NameSupply → Prop} (hx : Ensures s x P E)
    (hk : ∀ a s', s.Precedes s' → P a s' → Ensures s' (k a) R E) : Ensures s (x >>= k) R E := by
  rw [Ensures, runWith_bind]
  rcases hr : x.runWith s with ⟨e | a, s'⟩
  · exact hx.of_error hr
  · obtain ⟨hs, hP⟩ := hx.of_ok hr
    have hka := hk a s' hs hP
    rcases hr' : (k a).runWith s' with ⟨e | b, s''⟩
    · simpa only [hr'] using hka.of_error hr'
    · simpa only [hr'] using ⟨hs.trans (hka.of_ok hr').1, (hka.of_ok hr').2⟩

theorem mono (hx : Ensures s x P E) (h : ∀ a s', P a s' → Q a s') : Ensures s x Q E := by
  rcases hr : x.runWith s with ⟨e | a, s'⟩
  · rw [Ensures, hr]
    exact hx.of_error hr
  · rw [Ensures, hr]
    exact ⟨(hx.of_ok hr).1, h a s' (hx.of_ok hr).2⟩

theorem mono_error (hx : Ensures s x Q E) (h : ∀ e, E e → F e) : Ensures s x Q F := by
  rcases hr : x.runWith s with ⟨e | a, s'⟩
  · rw [Ensures, hr]
    exact h e (hx.of_error hr)
  · rw [Ensures, hr]
    exact hx.of_ok hr

/-- The name that is drawn is the next one. -/
theorem name : Ensures s Fresh.name (fun n s' => s.Gives [n] s') E := ⟨s.precedes_draw, .draw⟩

end Ensures

end Fresh

end Combinatory
