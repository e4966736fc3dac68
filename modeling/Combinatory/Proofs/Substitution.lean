import Combinatory.Substitution
import Combinatory.Proofs.Nameless
import Combinatory.Proofs.NameSupply
import Mathlib.Data.String.Basic

/-!
# Substitution is capture-avoiding

`Term.substitute` renames binders with fresh names as it goes. On nameless forms there is nothing to rename, and
**`nameless_substitute`** says that the two agree: the form of `substitute n d t` is the form of `t` with the
form of `d` in place of `n`.

## The model

This holds of terms that are `Tidy`: they have no bare names, and no binder has a binder in its pattern. (The
names of a binder inside a pattern are bound twice over, and renaming the outer binder would miss them.) Tidiness
is kept by substitution.

`Term.Renames pairs p` gathers what `Term.refreshing` provides: names of the pattern `p`, each once, paired with
distinct names that do not occur in `p`. `Term.Inserts n d t u` lists what substitution does to tidy terms, with a
binder that has been refreshed in one rule: it follows these rules (`inserts_substitute`), and what is said of its
results is proved by induction on them.
-/

namespace Combinatory

/-! ### Sets of names -/

theorem pairwise_insertName {n : String} {ms : List String} (h : ms.Pairwise (· < ·)) :
    (insertName n ms).Pairwise (· < ·) := by
  induction ms with
  | nil => simp [insertName]
  | cons m ms ih =>
    obtain ⟨hm, hms⟩ := List.pairwise_cons.1 h
    simp only [insertName]
    split
    · next hlt =>
      refine List.pairwise_cons.2 ⟨?_, h⟩
      intro k hk
      rcases List.mem_cons.1 hk with rfl | hk
      · exact hlt
      · exact lt_trans hlt (hm k hk)
    · split
      · exact h
      · next hlt hne =>
        refine List.pairwise_cons.2 ⟨?_, ih hms⟩
        intro k hk
        rcases mem_insertName.1 hk with rfl | hk
        · exact lt_of_le_of_ne (not_lt.1 hlt) (Ne.symm hne)
        · exact hm k hk

theorem pairwise_nameSet (ns : List String) : (nameSet ns).Pairwise (· < ·) := by
  induction ns with
  | nil => exact List.Pairwise.nil
  | cons n ns ih => exact pairwise_insertName ih

theorem nodup_nameSet (ns : List String) : (nameSet ns).Nodup := (pairwise_nameSet ns).imp fun hlt => ne_of_lt hlt

/-- Ascending lists are determined by their members. -/
theorem eq_of_mem_iff {ns ms : List String} (hns : ns.Pairwise (· < ·)) (hms : ms.Pairwise (· < ·))
    (h : ∀ n, n ∈ ns ↔ n ∈ ms) : ns = ms := by
  have nodup {ks : List String} (hks : ks.Pairwise (· < ·)) : ks.Nodup := hks.imp fun hlt => ne_of_lt hlt
  have hperm : ns.Perm ms := (List.perm_ext_iff_of_nodup (nodup hns) (nodup hms)).2 h
  exact hperm.eq_of_pairwise (fun n m _ _ hnm hmn => absurd hmn (lt_asymm hnm)) hns hms

/-- A set of names is determined by its members. -/
theorem nameSet_congr {ns ms : List String} (h : ∀ n, n ∈ ns ↔ n ∈ ms) : nameSet ns = nameSet ms :=
  eq_of_mem_iff (pairwise_nameSet ns) (pairwise_nameSet ms) fun n => by rw [mem_nameSet, mem_nameSet, h]

namespace Term

open Nameless

/-! ### Tidy terms -/

/-- There is no `LAMBDA` and no `LETREC`. -/
def BinderFree : Term → Prop
  | .name _ | .const _ | .var _ => True
  | .unary _ x => x.BinderFree
  | .binary _ x y => x.BinderFree ∧ y.BinderFree
  | .lambda _ _ | .letrec _ _ _ => False

/-- No binder has a binder in its pattern. -/
def SimpleBinders : Term → Prop
  | .name _ | .const _ | .var _ => True
  | .unary _ x => x.SimpleBinders
  | .binary _ x y => x.SimpleBinders ∧ y.SimpleBinders
  | .lambda p e => p.BinderFree ∧ e.SimpleBinders
  | .letrec p d e => p.BinderFree ∧ d.SimpleBinders ∧ e.SimpleBinders

/-- A well-formed term with simple binders. -/
def Tidy (t : Term) : Prop := t.WellFormed ∧ t.SimpleBinders

@[simp] theorem not_tidy_name (n : String) : ¬(Term.name n).Tidy := fun h => h.1

@[simp] theorem tidy_const (o : Const) : (Term.const o).Tidy := ⟨trivial, trivial⟩

@[simp] theorem tidy_var (n : String) : (Term.var n).Tidy := ⟨trivial, trivial⟩

@[simp] theorem tidy_unary {u : Unary} {x : Term} : (Term.unary u x).Tidy ↔ x.Tidy := Iff.rfl

@[simp] theorem tidy_binary {b : Binary} {x y : Term} : (Term.binary b x y).Tidy ↔ x.Tidy ∧ y.Tidy := by
  simp only [Tidy, WellFormed, SimpleBinders]
  tauto

@[simp] theorem tidy_lambda {p e : Term} :
    (Term.lambda p e).Tidy ↔ (p.WellFormed ∧ p.BinderFree) ∧ e.Tidy := by
  simp only [Tidy, WellFormed, SimpleBinders]
  tauto

@[simp] theorem tidy_letrec {p d e : Term} :
    (Term.letrec p d e).Tidy ↔ (p.WellFormed ∧ p.BinderFree) ∧ d.Tidy ∧ e.Tidy := by
  simp only [Tidy, WellFormed, SimpleBinders]
  tauto

theorem BinderFree.simpleBinders {t : Term} (h : t.BinderFree) : t.SimpleBinders := by
  induction t with
  | name _ | const _ | var _ => trivial
  | unary _ _ ih => exact ih h
  | binary _ _ _ ihx ihy => exact ⟨ihx h.1, ihy h.2⟩
  | lambda _ _ | letrec _ _ _ => exact h.elim

theorem mem_payloads_of_mem_freeOccurrences {n : String} {t : Term} (h : n ∈ t.freeOccurrences) :
    n ∈ t.payloads := by
  apply mem_payloads_of_count_ne_zero
  rw [Ne, count_eq_zero_iff]
  exact not_not_intro h

/-! ### Renaming one variable -/

/-- What renaming does to a name. -/
def renamed (old new m : String) : String := if m = old then new else m

theorem renamed_of_ne {old new m : String} (h : m ≠ old) : renamed old new m = m := if_neg h

theorem rename_of_count_eq_zero {old new : String} {t : Term} (h : t.count old = 0) :
    t.rename old new = t := by
  induction t with
  | name _ | const _ => rfl
  | var m =>
    simp only [count, ite_eq_right_iff, one_ne_zero, imp_false] at h
    simp [rename, h]
  | unary _ _ ih => rw [rename, ih h]
  | binary _ _ _ ihx ihy =>
    simp only [count, Nat.add_eq_zero_iff] at h
    rw [rename, ihx h.1, ihy h.2]
  | lambda _ _ | letrec _ _ _ => rw [rename, if_pos h]

theorem count_eq_zero_of_not_mem {n : String} {t : Term} (h : n ∉ t.payloads) : t.count n = 0 :=
  count_eq_zero_iff.2 fun hf => h (mem_payloads_of_mem_freeOccurrences hf)

/-- In a pattern every variable is renamed. -/
theorem payloads_rename {old new : String} {p : Term} (hw : p.WellFormed) (hb : p.BinderFree) :
    (p.rename old new).payloads = p.payloads.map (renamed old new) := by
  induction p with
  | name _ => exact hw.elim
  | const _ => rfl
  | var m =>
    simp only [rename, renamed, payloads, List.map_cons, List.map_nil]
    split <;> rfl
  | unary _ _ ih => exact ih hw hb
  | binary _ _ _ ihx ihy => simp only [rename, payloads, ihx hw.1 hb.1, ihy hw.2 hb.2, List.map_append]
  | lambda _ _ | letrec _ _ _ => exact hb.elim

theorem wellFormed_rename {old new : String} {t : Term} : (t.rename old new).WellFormed ↔ t.WellFormed := by
  fun_induction rename old new t <;> simp_all [WellFormed]

theorem binderFree_rename {old new : String} {t : Term} : (t.rename old new).BinderFree ↔ t.BinderFree := by
  fun_induction rename old new t <;> simp_all [BinderFree]

theorem tidy_rename {old new : String} {t : Term} : (t.rename old new).Tidy ↔ t.Tidy := by
  fun_induction rename old new t <;> simp_all [wellFormed_rename, binderFree_rename]

theorem map_renamed_of_not_mem {old new : String} {l : List String} (h : old ∉ l) :
    l.map (renamed old new) = l := by
  conv_rhs => rw [← List.map_id l]
  exact List.map_congr_left fun m hm => renamed_of_ne fun e => h (e ▸ hm)

/-- A map that merges no other name with `m` keeps the position of `m`. -/
theorem idxOf_map_of_unmerged {f : String → String} {m : String} {l : List String}
    (h : ∀ x ∈ l, f x = f m → x = m) : (l.map f).idxOf (f m) = l.idxOf m := by
  induction l with
  | nil => rfl
  | cons x l ih =>
    have ih := ih fun y hy => h y (List.mem_cons_of_mem _ hy)
    rw [List.map_cons, List.idxOf_cons, List.idxOf_cons, ih]
    by_cases hx : x = m
    · simp [hx]
    · have hf : f x ≠ f m := fun he => hx (h x List.mem_cons_self he)
      rw [beq_false_of_ne hx, beq_false_of_ne hf]

theorem resolve_renamed {Δ Γ : List String} {old new m : String} (hold : old ∈ Δ) (hnew : new ∉ Δ)
    (hm : m ≠ new) :
    resolve (Δ.map (renamed old new) ++ Γ) (renamed old new m) = resolve (Δ ++ Γ) m := by
  have inj : ∀ x ∈ Δ, renamed old new x = renamed old new m → x = m := by
    intro x hx h
    have hxn : x ≠ new := fun e => hnew (e ▸ hx)
    unfold renamed at h
    grind
  by_cases hmΔ : m ∈ Δ
  · have hmem : renamed old new m ∈ Δ.map (renamed old new) := List.mem_map_of_mem hmΔ
    unfold resolve
    rw [if_pos (List.mem_append_left _ hmem), if_pos (List.mem_append_left _ hmΔ),
      List.idxOf_append_of_mem hmem, List.idxOf_append_of_mem hmΔ, idxOf_map_of_unmerged inj]
  · have hmo : m ≠ old := fun e => hmΔ (e ▸ hold)
    have hmem : m ∉ Δ.map (renamed old new) := by
      intro h
      obtain ⟨x, hx, hxm⟩ := List.mem_map.1 h
      exact hmΔ (inj x hx (by rw [hxm, renamed_of_ne hmo]) ▸ hx)
    simp [resolve, renamed_of_ne hmo, hmΔ, hmem, List.idxOf_append_of_notMem]

/-- Where `old` does not occur free, its binder may be renamed alone. -/
theorem nameless_rename_of_count_eq_zero {old new : String} {t : Term} {Δ Γ : List String} (hold : old ∈ Δ)
    (hnew : new ∉ Δ) (ht : new ∉ t.payloads) (hc : t.count old = 0) :
    (t.rename old new).nameless (Δ.map (renamed old new) ++ Γ) = t.nameless (Δ ++ Γ) := by
  rw [rename_of_count_eq_zero hc]
  apply nameless_congr
  intro m hm
  have hmo : m ≠ old := fun e => count_eq_zero_iff.1 hc (e ▸ hm)
  have hmn : m ≠ new := fun e => ht (e ▸ mem_payloads_of_mem_freeOccurrences hm)
  rw [← resolve_renamed hold hnew hmn, renamed_of_ne hmo]

/-- Renaming a bound variable, with its binder, to a name that does not occur does not change the form. -/
theorem nameless_rename {old new : String} {t : Term} {Δ Γ : List String} (hold : old ∈ Δ) (hnew : new ∉ Δ)
    (ht : new ∉ t.payloads) :
    (t.rename old new).nameless (Δ.map (renamed old new) ++ Γ) = t.nameless (Δ ++ Γ) := by
  -- a binder in between has a pattern without `old`, which renaming leaves as it is
  have extend {p : Term} (hp : old ∉ p.payloads) (Δ : List String) :
      p.binders ++ (Δ.map (renamed old new) ++ Γ) = (p.binders ++ Δ).map (renamed old new) ++ Γ := by
    rw [List.map_append, map_renamed_of_not_mem (l := p.binders) (by simpa using hp), List.append_assoc]
  induction t generalizing Δ with
  | name _ | const _ => rfl
  | var m =>
    have hm : m ≠ new := by simpa [payloads, eq_comm] using ht
    have hvar : (Term.var m).rename old new = .var (renamed old new m) := by
      simp only [rename, renamed]
      split <;> rfl
    rw [hvar]
    exact resolve_renamed hold hnew hm
  | unary u x ih => rw [rename, nameless, nameless, ih hold hnew ht]
  | binary b x y ihx ihy =>
    simp only [payloads, List.mem_append, not_or] at ht
    rw [rename, nameless, nameless, ihx hold hnew ht.1, ihy hold hnew ht.2]
  | lambda p e _ ihe =>
    by_cases hc : (Term.lambda p e).count old = 0
    · exact nameless_rename_of_count_eq_zero hold hnew ht hc
    · have hp : old ∉ p.payloads := fun hp => hc (by simp [count, hp])
      simp only [payloads, List.mem_append, not_or] at ht
      have he := ihe (Δ := p.binders ++ Δ) (by simp [hold]) (by simp [hnew, ht.1]) ht.2
      rw [rename, if_neg hc, rename_of_count_eq_zero (count_eq_zero_of_not_mem hp), nameless, nameless,
        extend hp, he, List.append_assoc]
  | letrec p d e _ ihd ihe =>
    by_cases hc : (Term.letrec p d e).count old = 0
    · exact nameless_rename_of_count_eq_zero hold hnew ht hc
    · have hp : old ∉ p.payloads := fun hp => hc (by simp [count, hp])
      simp only [payloads, List.mem_append, not_or] at ht
      have hd := ihd (Δ := p.binders ++ Δ) (by simp [hold]) (by simp [hnew, ht.1.1]) ht.1.2
      have he := ihe (Δ := p.binders ++ Δ) (by simp [hold]) (by simp [hnew, ht.1.1]) ht.2
      rw [rename, if_neg hc, rename_of_count_eq_zero (count_eq_zero_of_not_mem hp), nameless, nameless,
        extend hp, hd, he, List.append_assoc]

/-! ### Renaming a binder -/

/-- The pairs rename names of the pattern `p`, each once, to distinct names that are new to it. -/
structure Renames (pairs : List (String × String)) (p : Term) : Prop where
  /-- The pattern has no bare names. -/
  wellFormed : p.WellFormed
  /-- The pattern has no binders. -/
  binderFree : p.BinderFree
  /-- The old names are those of the pattern. -/
  old_mem : ∀ r ∈ pairs, r.1 ∈ p.payloads
  /-- The new names are not. -/
  new_not_mem : ∀ r ∈ pairs, r.2 ∉ p.payloads
  /-- No name is renamed twice. -/
  old_nodup : (pairs.map Prod.fst).Nodup
  /-- No name is used twice. -/
  new_nodup : (pairs.map Prod.snd).Nodup

theorem renameAll_cons (old new : String) (rs : List (String × String)) (t : Term) :
    t.renameAll ((old, new) :: rs) = (t.rename old new).renameAll rs := rfl

/-- After the first pair the others still rename the pattern. -/
theorem Renames.tail {old new : String} {rs : List (String × String)} {p : Term}
    (h : Renames ((old, new) :: rs) p) : Renames rs (p.rename old new) := by
  have hold := List.nodup_cons.1 h.old_nodup
  have hnew := List.nodup_cons.1 h.new_nodup
  refine ⟨wellFormed_rename.2 h.wellFormed, binderFree_rename.2 h.binderFree, ?_, ?_, hold.2, hnew.2⟩
  · intro r hr
    have hne : r.1 ≠ old := fun e => hold.1 (List.mem_map.2 ⟨r, hr, e⟩)
    rw [payloads_rename h.wellFormed h.binderFree, ← @renamed_of_ne _ new _ hne]
    exact List.mem_map_of_mem (h.old_mem r (List.mem_cons_of_mem _ hr))
  · intro r hr hmem
    have hne : r.2 ≠ new := fun e => hnew.1 (List.mem_map.2 ⟨r, hr, e⟩)
    rw [payloads_rename h.wellFormed h.binderFree] at hmem
    obtain ⟨m, hm, hmr⟩ := List.mem_map.1 hmem
    unfold renamed at hmr
    split at hmr
    · exact hne hmr.symm
    · exact h.new_not_mem r (List.mem_cons_of_mem _ hr) (hmr ▸ hm)

theorem payloads_rename_subset {old new n : String} {t : Term} (h : n ∈ (t.rename old new).payloads) :
    n ∈ t.payloads ∨ n = new := by
  by_cases hn : n = new
  · exact .inr hn
  by_cases ho : n = old
  · subst ho
    by_contra hc
    simp only [hn, or_false] at hc
    rw [rename_of_count_eq_zero (count_eq_zero_of_not_mem hc)] at h
    exact hc h
  · exact .inl ((mem_payloads_rename ho hn t).1 h)

/-- The names that the pairs bring in are distinct, and new to the term. -/
structure NewTo (pairs : List (String × String)) (t : Term) : Prop where
  /-- No name is brought in twice. -/
  nodup : (pairs.map Prod.snd).Nodup
  /-- The names do not occur in the term. -/
  not_mem : ∀ r ∈ pairs, r.2 ∉ t.payloads

theorem NewTo.head {old new : String} {rs : List (String × String)} {t : Term} (h : NewTo ((old, new) :: rs) t) :
    new ∉ t.payloads := h.not_mem _ List.mem_cons_self

theorem NewTo.tail {old new : String} {rs : List (String × String)} {t : Term} (h : NewTo ((old, new) :: rs) t) :
    NewTo rs (t.rename old new) where
  nodup := (List.nodup_cons.1 h.nodup).2
  not_mem r hr hmem := by
    rcases payloads_rename_subset hmem with hmem | he
    · exact h.not_mem r (List.mem_cons_of_mem _ hr) hmem
    · exact (List.nodup_cons.1 h.nodup).1 (List.mem_map.2 ⟨r, hr, he⟩)

/-- Renaming a binder and its scope does not change the form of what is in scope. -/
theorem Renames.nameless {pairs : List (String × String)} {p : Term} (h : Renames pairs p) {t : Term}
    (ht : ∀ r ∈ pairs, r.2 ∉ t.payloads) (Γ : List String) :
    (t.renameAll pairs).nameless ((p.renameAll pairs).binders ++ Γ) = t.nameless (p.binders ++ Γ) := by
  induction pairs generalizing p t with
  | nil => rfl
  | cons r rs ih =>
    obtain ⟨old, new⟩ := r
    have hnew : NewTo ((old, new) :: rs) t := ⟨h.new_nodup, ht⟩
    have hbinders : (p.rename old new).binders = p.binders.map (renamed old new) := by
      rw [binders, payloads_rename h.wellFormed h.binderFree, binders, List.map_reverse]
    rw [renameAll_cons, renameAll_cons, ih h.tail hnew.tail.not_mem, hbinders]
    exact nameless_rename (by simpa using h.old_mem _ List.mem_cons_self)
      (by simpa using h.new_not_mem _ List.mem_cons_self) hnew.head

theorem Renames.nameless_pattern {pairs : List (String × String)} {p : Term} (h : Renames pairs p) :
    (p.renameAll pairs).nameless (p.renameAll pairs).binders = p.nameless p.binders := by
  have hform := h.nameless h.new_not_mem []
  rwa [List.append_nil, List.append_nil] at hform

theorem Renames.renamed_pattern {pairs : List (String × String)} {p : Term} (h : Renames pairs p) :
    (p.renameAll pairs).WellFormed ∧ (p.renameAll pairs).BinderFree := by
  induction pairs generalizing p with
  | nil => exact ⟨h.wellFormed, h.binderFree⟩
  | cons r rs ih => exact ih h.tail

theorem Renames.length {pairs : List (String × String)} {p : Term} (h : Renames pairs p) :
    (p.renameAll pairs).payloads.length = p.payloads.length := by
  induction pairs generalizing p with
  | nil => rfl
  | cons r rs ih =>
    rw [renameAll_cons, ih h.tail, payloads_rename h.wellFormed h.binderFree, List.length_map]

/-- A name of the renamed pattern is a new one, or one that is not renamed. -/
theorem Renames.mem_payloads {pairs : List (String × String)} {p : Term} (h : Renames pairs p) {n : String}
    (hn : n ∈ (p.renameAll pairs).payloads) :
    (∃ r ∈ pairs, n = r.2) ∨ n ∈ p.payloads ∧ ∀ r ∈ pairs, n ≠ r.1 := by
  induction pairs generalizing p with
  | nil => exact .inr ⟨hn, by simp⟩
  | cons r rs ih =>
    obtain ⟨old, new⟩ := r
    rcases ih h.tail hn with ⟨r, hr, rfl⟩ | ⟨hmem, hrs⟩
    · exact .inl ⟨r, List.mem_cons_of_mem _ hr, rfl⟩
    · rw [payloads_rename h.wellFormed h.binderFree] at hmem
      obtain ⟨m, hm, hmn⟩ := List.mem_map.1 hmem
      unfold renamed at hmn
      split at hmn
      · exact .inl ⟨_, List.mem_cons_self, hmn.symm⟩
      · next hne =>
        subst hmn
        refine .inr ⟨hm, ?_⟩
        intro r hr
        rcases List.mem_cons.1 hr with rfl | hr
        · exact hne
        · exact hrs r hr

theorem tidy_renameAll {pairs : List (String × String)} {t : Term} : (t.renameAll pairs).Tidy ↔ t.Tidy := by
  induction pairs generalizing t with
  | nil => exact Iff.rfl
  | cons r rs ih => rw [renameAll_cons, ih, tidy_rename]

/-! ### Substitution -/

theorem map_fst_refreshing (p d : Term) (ns : List String) :
    (refreshing p ns d).map Prod.fst = p.names.filter (· ∈ d.freeNames) := by
  simp only [refreshing]
  rw [List.map_fst_zip (by simp)]

theorem map_snd_refreshing (p d : Term) (ns : List String) :
    (refreshing p ns d).map Prod.snd =
      ((NameSupply.avoiding (ns ++ d.payloads)).drawMany (p.names.filter (· ∈ d.freeNames)).length).1 := by
  simp only [refreshing]
  rw [List.map_snd_zip (by simp)]

/-- The new names occur neither in the binder nor in what is substituted. -/
theorem refreshing_new {p d : Term} {ns : List String} {r : String × String} (hr : r ∈ refreshing p ns d) :
    r.2 ∉ ns ∧ r.2 ∉ d.payloads := by
  have h : r.2 ∈ (refreshing p ns d).map Prod.snd := List.mem_map_of_mem hr
  rw [map_snd_refreshing] at h
  have := NameSupply.drawMany_not_mem h
  simpa [NameSupply.avoiding, not_or] using this

theorem newTo_refreshing {p d t : Term} {ns : List String} (hns : t.payloads ⊆ ns) : NewTo (refreshing p ns d) t where
  nodup := by
    rw [map_snd_refreshing]
    exact NameSupply.nodup_drawMany _ _
  not_mem _ hr hmem := (refreshing_new hr).1 (hns hmem)

theorem renames_refreshing {p d : Term} {ns : List String} (hw : p.WellFormed) (hb : p.BinderFree)
    (hns : ∀ n ∈ p.payloads, n ∈ ns) : Renames (refreshing p ns d) p := by
  have hnew : NewTo (refreshing p ns d) p := newTo_refreshing fun n hn => hns n hn
  refine ⟨hw, hb, ?_, hnew.not_mem, ?_, hnew.nodup⟩
  · intro r hr
    have h : r.1 ∈ (refreshing p ns d).map Prod.fst := List.mem_map_of_mem hr
    rw [map_fst_refreshing] at h
    exact mem_names.1 (List.mem_filter.1 h).1
  · rw [map_fst_refreshing]
    exact (nodup_nameSet _).filter _

/-- The refreshed pattern captures nothing. -/
theorem not_mem_of_mem_refreshed {p d : Term} {ns : List String} (h : Renames (refreshing p ns d) p)
    {m : String} (hm : m ∈ (p.renameAll (refreshing p ns d)).payloads) : m ∉ d.freeOccurrences := by
  intro hd
  rcases h.mem_payloads hm with ⟨r, hr, rfl⟩ | ⟨hmp, hne⟩
  · exact (refreshing_new hr).2 (mem_payloads_of_mem_freeOccurrences hd)
  · have hmem : m ∈ (refreshing p ns d).map Prod.fst := by
      rw [map_fst_refreshing]
      exact List.mem_filter.2 ⟨mem_names.2 hmp, by simpa using hd⟩
    obtain ⟨r, hr, hrm⟩ := List.mem_map.1 hmem
    exact hne r hr hrm.symm

theorem substitute_of_count_eq_zero {n : String} {d t : Term} (h : t.count n = 0) : substitute n d t = t := by
  induction t with
  | name _ | const _ => rw [substitute]
  | var m =>
    simp only [count, ite_eq_right_iff, one_ne_zero, imp_false] at h
    rw [substitute, if_neg h]
  | unary _ _ ih => rw [substitute, ih h]
  | binary _ _ _ ihx ihy =>
    simp only [count, Nat.add_eq_zero_iff] at h
    rw [substitute, ihx h.1, ihy h.2]
  | lambda _ _ | letrec _ _ _ => rw [substitute, if_pos h]

/-- The refreshed pattern still does not have the variable. -/
theorem not_mem_refreshed {n : String} {p d : Term} {ns : List String} (h : Renames (refreshing p ns d) p)
    (hn : n ∉ p.payloads) (hns : n ∈ ns) : n ∉ (p.renameAll (refreshing p ns d)).payloads := by
  intro hmem
  rcases h.mem_payloads hmem with ⟨r, hr, rfl⟩ | ⟨hp, -⟩
  · exact (refreshing_new hr).1 hns
  · exact hn hp

/-- The pairs refresh the pattern `p` of a binder, so that `d` can be put in the place of the variable `n` below it. -/
structure Refreshes (n : String) (d : Term) (pairs : List (String × String)) (p : Term) : Prop extends
    Renames pairs p where
  /-- The refreshed pattern does not have the variable. -/
  not_mem : n ∉ (p.renameAll pairs).payloads
  /-- The refreshed pattern captures nothing. -/
  captures_not : ∀ m ∈ d.freeOccurrences, m ∉ (p.renameAll pairs).payloads

theorem refreshes_refreshing {n : String} {p d : Term} {ns : List String} (hw : p.WellFormed) (hb : p.BinderFree)
    (hp : p.payloads ⊆ ns) (hn : n ∉ p.payloads) (hns : n ∈ ns) : Refreshes n d (refreshing p ns d) p :=
  have hr : Renames (refreshing p ns d) p := renames_refreshing hw hb fun _ hm => hp hm
  ⟨hr, not_mem_refreshed hr hn hns, fun _ hm h => not_mem_of_mem_refreshed hr h hm⟩

/-- What holds of the scope of a binder that is refreshed, if it holds of the scope around it. -/
theorem Refreshes.scope {n : String} {p d : Term} {pairs : List (String × String)} {Γ : List String}
    (h : Refreshes n d pairs p) (hn : n ∉ Γ) (hd : ∀ m ∈ d.freeOccurrences, m ∉ Γ) :
    n ∉ (p.renameAll pairs).binders ++ Γ ∧ ∀ m ∈ d.freeOccurrences, m ∉ (p.renameAll pairs).binders ++ Γ := by
  simp only [List.mem_append, mem_binders, not_or]
  exact ⟨⟨h.not_mem, hn⟩, fun m hm => ⟨h.captures_not m hm, hd m hm⟩⟩

theorem Refreshes.substitute_pattern {n : String} {p d : Term} {pairs : List (String × String)}
    (h : Refreshes n d pairs p) : substitute n d (p.renameAll pairs) = p.renameAll pairs :=
  substitute_of_count_eq_zero (count_eq_zero_of_not_mem h.not_mem)

/-- What substitution does to a tidy term: `d` is put in the place of the variable `n`, and the binders above it are
refreshed. -/
inductive Inserts (n : String) (d : Term) : Term → Term → Prop where
  | unchanged {t : Term} : t.Tidy → t.count n = 0 → Inserts n d t t
  | here : Inserts n d (.var n) d
  | unary (c : Unary) {x x' : Term} : Inserts n d x x' → Inserts n d (.unary c x) (.unary c x')
  | binary (b : Binary) {x x' y y' : Term} : Inserts n d x x' → Inserts n d y y' →
    Inserts n d (.binary b x y) (.binary b x' y')
  | lambda {p e e' : Term} {pairs : List (String × String)} : Refreshes n d pairs p →
    (∀ r ∈ pairs, r.2 ∉ e.payloads) → Inserts n d (e.renameAll pairs) e' →
    Inserts n d (.lambda p e) (.lambda (p.renameAll pairs) e')
  | letrec {p f f' e e' : Term} {pairs : List (String × String)} : Refreshes n d pairs p →
    (∀ r ∈ pairs, r.2 ∉ f.payloads) → (∀ r ∈ pairs, r.2 ∉ e.payloads) →
    Inserts n d (f.renameAll pairs) f' → Inserts n d (e.renameAll pairs) e' →
    Inserts n d (.letrec p f e) (.letrec (p.renameAll pairs) f' e')

theorem inserts_substitute {n : String} {d t : Term} (ht : t.Tidy) : Inserts n d t (substitute n d t) := by
  fun_induction substitute n d t with
  | case1 m => exact (not_tidy_name m ht).elim
  | case2 o => exact .unchanged ht rfl
  | case3 => exact .here
  | case4 m hm => exact .unchanged ht (by simp [count, hm])
  | case5 c x ih => exact .unary c (ih ht)
  | case6 b x y ihx ihy =>
    rw [tidy_binary] at ht
    exact .binary b (ihx ht.1) (ihy ht.2)
  | case7 p e hc | case9 p f e hc => exact .unchanged ht hc
  | case8 p e hc r ihp ihe =>
    obtain ⟨⟨hw, hb⟩, he⟩ := tidy_lambda.1 ht
    have hn : n ∉ p.payloads := fun hp => hc (by simp [count, hp])
    have hr : Refreshes n d r p :=
      refreshes_refreshing hw hb (List.subset_append_left _ _) hn (mem_payloads_of_count_ne_zero hc)
    have new (q : String × String) (hq : q ∈ r) := (refreshing_new hq).1
    simp only [payloads, List.mem_append, not_or] at new
    rw [hr.substitute_pattern]
    exact .lambda hr (fun q hq => (new q hq).2) (ihe (tidy_renameAll.2 he))
  | case10 p f e hc r ihp ihf ihe =>
    obtain ⟨⟨hw, hb⟩, hf, he⟩ := tidy_letrec.1 ht
    have hn : n ∉ p.payloads := fun hp => hc (by simp [count, hp])
    have hp : p.payloads ⊆ payloads (.letrec p f e) := fun m hm => by simp [payloads, hm]
    have hr : Refreshes n d r p := refreshes_refreshing hw hb hp hn (mem_payloads_of_count_ne_zero hc)
    have new (q : String × String) (hq : q ∈ r) := (refreshing_new hq).1
    simp only [payloads, List.mem_append, not_or] at new
    rw [hr.substitute_pattern]
    exact .letrec hr (fun q hq => (new q hq).1.2) (fun q hq => (new q hq).2) (ihf (tidy_renameAll.2 hf))
      (ihe (tidy_renameAll.2 he))

theorem Inserts.nameless {n : String} {d t u : Term} (h : Inserts n d t u) {Γ : List String} (hn : n ∉ Γ)
    (hd : ∀ m ∈ d.freeOccurrences, m ∉ Γ) : u.nameless Γ = (t.nameless Γ).subst n (d.nameless []) := by
  induction h generalizing Γ with
  | unchanged _ hc =>
    rw [subst_of_not_mem]
    rw [mem_frees_nameless]
    exact fun h => count_eq_zero_iff.1 hc h.1
  | here =>
    rw [nameless_eq_nil hd, Term.nameless, resolve_of_not_mem hn]
    simp [subst, substAll]
  | unary c _ ih =>
    rw [Term.nameless, Term.nameless, ih hn hd]
    rfl
  | binary b _ _ ihx ihy =>
    rw [Term.nameless, Term.nameless, ihx hn hd, ihy hn hd]
    rfl
  | lambda hr he _ ih =>
    obtain ⟨hn', hd'⟩ := hr.scope hn hd
    rw [Term.nameless, Term.nameless, hr.length, hr.nameless_pattern, ih hn' hd', hr.nameless he]
    rfl
  | letrec hr hf he _ _ ihf ihe =>
    obtain ⟨hn', hd'⟩ := hr.scope hn hd
    rw [Term.nameless, Term.nameless, hr.length, hr.nameless_pattern, ihf hn' hd', hr.nameless hf, ihe hn' hd',
      hr.nameless he]
    rfl

theorem Inserts.tidy {n : String} {d t u : Term} (h : Inserts n d t u) (hd : d.Tidy) : u.Tidy := by
  induction h with
  | unchanged ht _ => exact ht
  | here => exact hd
  | unary c _ ih => exact ih
  | binary b _ _ ihx ihy => exact tidy_binary.2 ⟨ihx, ihy⟩
  | lambda hr _ _ ih => exact tidy_lambda.2 ⟨hr.renamed_pattern, ih⟩
  | letrec hr _ _ _ _ ihf ihe => exact tidy_letrec.2 ⟨hr.renamed_pattern, ihf, ihe⟩

theorem tidy_substitute {n : String} {d t : Term} (hd : d.Tidy) (ht : t.Tidy) : (substitute n d t).Tidy :=
  (inserts_substitute ht).tidy hd

/-- **Substitution**: no matter which binders are renamed, the form of the result is the form of the term with
the variable replaced. -/
theorem nameless_substitute {n : String} {d t : Term} (ht : t.Tidy) {Γ : List String} (hn : n ∉ Γ)
    (hd : ∀ m ∈ d.freeOccurrences, m ∉ Γ) :
    (substitute n d t).nameless Γ = (t.nameless Γ).subst n (d.nameless []) :=
  (inserts_substitute ht).nameless hn hd

theorem nameless_substitute_nil {n : String} {d t : Term} (ht : t.Tidy) :
    (substitute n d t).nameless [] = (t.nameless []).subst n (d.nameless []) :=
  nameless_substitute ht (by simp) (by simp)

theorem nameless_exchange_of_count_eq_zero {v w : String} {t : Term} (hv : t.count v = 0)
    (hw : w ∈ t.freeOccurrences → w = v) (Ξ Γ : List String) :
    t.nameless (Ξ ++ w :: Γ) = t.nameless (Ξ ++ v :: Γ) := by
  rw [count_eq_zero_iff] at hv
  refine nameless_congr fun n hn => resolve_append_congr fun _ => ?_
  have hnv : n ≠ v := fun e => hv (e ▸ hn)
  have hnw : n ≠ w := fun e => hnv (e.trans (hw (e ▸ hn)))
  rw [resolve_cons_of_ne hnv, resolve_cons_of_ne hnw]

/-- A variable that is free below a renamed binder was free below it before. -/
theorem Renames.mem_freeOccurrences {pairs : List (String × String)} {p e : Term} (h : Renames pairs p)
    (he : ∀ r ∈ pairs, r.2 ∉ e.payloads) {n : String} (hn : n ∈ (e.renameAll pairs).freeOccurrences)
    (hp : n ∉ (p.renameAll pairs).payloads) : n ∈ e.freeOccurrences ∧ n ∉ p.payloads := by
  have hfree : n ∈ ((e.renameAll pairs).nameless ((p.renameAll pairs).binders ++ [])).frees := by
    rw [mem_frees_nameless, List.append_nil, mem_binders]
    exact ⟨hn, hp⟩
  rwa [h.nameless he, mem_frees_nameless, List.append_nil, mem_binders] at hfree

/-- A variable of the scope may be exchanged for one that is not free in the term. -/
theorem Inserts.nameless_var {v w : String} {t u : Term} (h : Inserts v (.var w) t u) {Ξ Γ : List String} (hv : v ∉ Ξ)
    (hw : w ∉ Ξ) (hwt : w ∈ t.freeOccurrences → w = v) : u.nameless (Ξ ++ w :: Γ) = t.nameless (Ξ ++ v :: Γ) := by
  have hself : w ∈ (Term.var w).freeOccurrences := List.mem_cons_self
  induction h generalizing Ξ with
  | unchanged _ hc => exact nameless_exchange_of_count_eq_zero hc hwt Ξ Γ
  | here =>
    refine resolve_append_of_not_mem rfl hw hv ?_
    rw [resolve_cons_self, resolve_cons_self]
  | unary c _ ih => rw [Term.nameless, Term.nameless, ih hv hw hwt]
  | binary b _ _ ihx ihy =>
    rw [Term.nameless, Term.nameless, ihx hv hw fun h => hwt (mem_freeOccurrences_binary.2 (.inl h)),
      ihy hv hw fun h => hwt (mem_freeOccurrences_binary.2 (.inr h))]
  | @lambda p e e' pairs hr he _ ih =>
    obtain ⟨hv', hw'⟩ := hr.scope hv (List.forall_mem_singleton.2 hw)
    have hbody := ih hv' (hw' w hself) fun h => hwt (by
      simp [freeOccurrences, hr.mem_freeOccurrences he h (hr.captures_not w hself)])
    rw [List.append_assoc, List.append_assoc, hr.nameless he] at hbody
    rw [Term.nameless, Term.nameless, hr.length, hr.nameless_pattern, hbody]
  | @letrec p f f' e e' pairs hr hf he _ _ ihf ihe =>
    obtain ⟨hv', hw'⟩ := hr.scope hv (List.forall_mem_singleton.2 hw)
    have hdef := ihf hv' (hw' w hself) fun h => hwt (by
      simp [freeOccurrences, hr.mem_freeOccurrences hf h (hr.captures_not w hself)])
    have hbody := ihe hv' (hw' w hself) fun h => hwt (by
      simp [freeOccurrences, hr.mem_freeOccurrences he h (hr.captures_not w hself)])
    rw [List.append_assoc, List.append_assoc, hr.nameless hf] at hdef
    rw [List.append_assoc, List.append_assoc, hr.nameless he] at hbody
    rw [Term.nameless, Term.nameless, hr.length, hr.nameless_pattern, hdef, hbody]

theorem nameless_substitute_var {v w : String} {t : Term} (ht : t.Tidy) {Ξ Γ : List String} (hv : v ∉ Ξ) (hw : w ∉ Ξ)
    (hwt : w ∈ t.freeOccurrences → w = v) :
    (substitute v (.var w) t).nameless (Ξ ++ w :: Γ) = t.nameless (Ξ ++ v :: Γ) :=
  (inserts_substitute ht).nameless_var hv hw hwt

theorem mem_freeOccurrences_substitute {n m : String} {d t : Term} (ht : t.Tidy)
    (h : m ∈ (substitute n d t).freeOccurrences) :
    m ∈ d.freeOccurrences ∨ m ∈ t.freeOccurrences ∧ m ≠ n := by
  rw [← mem_frees_nameless_nil, nameless_substitute_nil ht, subst, mem_frees_substAll] at h
  obtain ⟨k, hk, hm⟩ := h
  by_cases hkn : k = n
  · subst hkn
    rw [Function.update_self] at hm
    exact .inl (mem_frees_nameless_nil.1 hm)
  · rw [Function.update_of_ne hkn, frees, List.mem_singleton] at hm
    subst hm
    exact .inr ⟨mem_frees_nameless_nil.1 hk, hkn⟩

theorem wellFormed_renameAll {pairs : List (String × String)} {t : Term} :
    (t.renameAll pairs).WellFormed ↔ t.WellFormed := by
  induction pairs generalizing t with
  | nil => exact Iff.rfl
  | cons r rs ih => rw [renameAll_cons, ih, wellFormed_rename]

theorem wellFormed_substitute {n : String} {d t : Term} (hd : d.WellFormed) (ht : t.WellFormed) :
    (substitute n d t).WellFormed := by
  fun_induction substitute n d t with
  | case1 | case2 | case4 | case7 | case9 => exact ht
  | case3 => exact hd
  | case5 u x ih => exact ih ht
  | case6 b x y ihx ihy => exact ⟨ihx ht.1, ihy ht.2⟩
  | case8 p e hc r ihp ihe => exact ⟨ihp (wellFormed_renameAll.2 ht.1), ihe (wellFormed_renameAll.2 ht.2)⟩
  | case10 p f e hc r ihp ihf ihe =>
    exact ⟨ihp (wellFormed_renameAll.2 ht.1), ihf (wellFormed_renameAll.2 ht.2.1),
      ihe (wellFormed_renameAll.2 ht.2.2)⟩

end Term

end Combinatory
