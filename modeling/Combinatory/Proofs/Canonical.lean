import Combinatory.Canonical
import Combinatory.Proofs.Nameless
import Combinatory.Proofs.NameSupply

/-!
# Canonical bound names keep the term

Giving bound variables their canonical names changes nothing but the choice of the names, and it is refused only if
a binder binds a name twice.

## The model

A binder binds all names of its pattern, so a binder inside a pattern is part of the pattern and no binder of its
own. `Term.boundNames` lists the names of the patterns from left to right, which is the order in which names are
drawn for them. `Term.LinearBinders` says that no pattern has a name twice.

## What is proved

* `ensures_canonicalPattern`: the new names of a pattern are drawn one for each variable, so the pattern has the
  same form in the scope of the new names.
* `ensures_canonicalIn`: a term in a scope has the same form as its renaming in the scope of the new names, and the
  binders of the renaming have the names that are drawn, in order.
* `canonicalForm_canonical`: the canonical form of a term is the term up to the choice of bound names, and its
  binders have the first names that are not free in the term.
* `exists_canonical`, `boundTwice_canonical`: when it exists.
-/

namespace Combinatory

open Nameless NameSupply Fresh

/-! ### Scopes -/

namespace Scope

/-- The names that are renamed, innermost first. -/
def olds (scope : Scope) : List String := scope.map Prod.fst

/-- What they are renamed to. -/
def news (scope : Scope) : List String := scope.map Prod.snd

@[simp] theorem olds_append (σ τ : Scope) : olds (σ ++ τ) = olds σ ++ olds τ := List.map_append

@[simp] theorem news_append (σ τ : Scope) : news (σ ++ τ) = news σ ++ news τ := List.map_append

theorem mem_olds_of_mem {scope : Scope} {n m : String} (h : (n, m) ∈ scope) : n ∈ scope.olds :=
  List.mem_map.2 ⟨(n, m), h, rfl⟩

theorem mem_news_of_mem {scope : Scope} {n m : String} (h : (n, m) ∈ scope) : m ∈ scope.news :=
  List.mem_map.2 ⟨(n, m), h, rfl⟩

theorem mem_of_lookup {scope : Scope} {n m : String} (h : scope.lookup n = some m) : (n, m) ∈ scope := by
  obtain ⟨σ, τ, rfl, -⟩ := List.lookup_eq_some_iff.1 h
  simp

theorem lookup_of_mem {scope : Scope} {n m : String} (hd : scope.olds.Nodup) (h : (n, m) ∈ scope) :
    scope.lookup n = some m := by
  induction scope with
  | nil => cases h
  | cons r rs ih =>
    obtain ⟨a, b⟩ := r
    obtain ⟨ha, hd⟩ := List.nodup_cons.1 hd
    rcases List.mem_cons.1 h with h | h
    · cases h
      exact List.lookup_cons_self
    · have hn : n ≠ a := fun e => ha (e ▸ mem_olds_of_mem h)
      rw [List.lookup_cons, beq_false_of_ne hn]
      exact ih hd h

theorem lookup_eq_none_iff {scope : Scope} {n : String} : scope.lookup n = none ↔ n ∉ scope.olds := by
  rw [List.lookup_eq_none_iff, olds, List.mem_map]
  simp only [bne_iff_ne, not_exists, not_and]
  exact ⟨fun h r hr e => h r hr e.symm, fun h r hr e => h r hr e.symm⟩

/-- If the new names differ, a name and its new name are the same variable. -/
theorem resolve_lookup {scope : Scope} {n m : String} (hd : scope.news.Nodup) (h : scope.lookup n = some m) :
    resolve scope.olds n = resolve scope.news m := by
  induction scope with
  | nil => cases h
  | cons r rs ih =>
    obtain ⟨a, b⟩ := r
    obtain ⟨hb, hd⟩ := List.nodup_cons.1 hd
    by_cases hn : n = a
    · subst hn
      rw [List.lookup_cons_self] at h
      cases h
      exact (resolve_cons_self _ _).trans (resolve_cons_self _ _).symm
    · rw [List.lookup_cons, beq_false_of_ne hn] at h
      have hmem := mem_of_lookup h
      have hm : m ≠ b := fun e => hb (e ▸ mem_news_of_mem hmem)
      have ih := ih hd h
      simp only [resolve, mem_olds_of_mem hmem, mem_news_of_mem hmem, if_true, Nameless.bound.injEq] at ih
      have holds : n ∈ a :: olds rs := List.mem_cons_of_mem a (mem_olds_of_mem hmem)
      have hnews : m ∈ b :: news rs := List.mem_cons_of_mem b (mem_news_of_mem hmem)
      change resolve (a :: olds rs) n = resolve (b :: news rs) m
      simp only [resolve, holds, hnews, if_true, List.idxOf_cons_ne _ (Ne.symm hn),
        List.idxOf_cons_ne _ (Ne.symm hm), ih]

/-- The new names differ, have been drawn and are not to be avoided. -/
structure Fit (scope : Scope) (s : NameSupply) : Prop where
  /-- The new names differ. -/
  nodup : scope.news.Nodup
  /-- The new names have been drawn. -/
  used : ∀ m ∈ scope.news, s.Used m
  /-- No name to be avoided is a new name. -/
  not_avoided : ∀ m ∈ scope.news, m ∉ s.avoid

theorem fit_nil (s : NameSupply) : Fit [] s :=
  ⟨List.nodup_nil, fun _ h => absurd h List.not_mem_nil, fun _ h => absurd h List.not_mem_nil⟩

theorem Fit.mono {scope : Scope} {s s' : NameSupply} (h : scope.Fit s) (hs : s.Precedes s') : scope.Fit s' :=
  ⟨h.nodup, fun m hm => (h.used m hm).mono hs, fun m hm => hs.avoid_eq ▸ h.not_avoided m hm⟩

/-- The names `ns` are renamed to `ms`, which are the next names of `s`. The last pair is first. -/
structure Renaming (scope : Scope) (ns ms : List String) (s s' : NameSupply) : Prop where
  /-- The names that are renamed. -/
  olds_eq : scope.olds = ns.reverse
  /-- Their new names. -/
  news_eq : scope.news = ms.reverse
  /-- No name is renamed twice. -/
  olds_nodup : scope.olds.Nodup
  /-- The new names are drawn. -/
  gives : s.Gives ms s'

namespace Renaming

variable {σ τ : Scope} {ns ns' ms ms' : List String} {s s' s'' : NameSupply}

theorem append (h : Renaming σ ns ms s s') (h' : Renaming τ ns' ms' s' s'') (hd : (olds (τ ++ σ)).Nodup) :
    Renaming (τ ++ σ) (ns ++ ns') (ms ++ ms') s s'' where
  olds_eq := by rw [olds_append, h.olds_eq, h'.olds_eq, List.reverse_append]
  news_eq := by rw [news_append, h.news_eq, h'.news_eq, List.reverse_append]
  olds_nodup := hd
  gives := h.gives.append h'.gives

theorem mem_news (h : Renaming σ ns ms s s') {m : String} : m ∈ σ.news ↔ m ∈ ms := by
  rw [h.news_eq, List.mem_reverse]

theorem news_nodup (h : Renaming σ ns ms s s') : σ.news.Nodup := by
  rw [h.news_eq, List.nodup_reverse]
  exact h.gives.nodup

theorem not_used (h : Renaming σ ns ms s s') {m : String} (hm : m ∈ σ.news) : ¬s.Used m :=
  h.gives.not_used (h.mem_news.1 hm)

theorem used (h : Renaming σ ns ms s s') {m : String} (hm : m ∈ σ.news) : s'.Used m :=
  h.gives.used (h.mem_news.1 hm)

theorem length_eq (h : Renaming σ ns ms s s') : ms.length = ns.length := by
  have hl : σ.olds.length = σ.news.length := by rw [olds, news, List.length_map, List.length_map]
  rw [h.olds_eq, h.news_eq, List.length_reverse, List.length_reverse] at hl
  exact hl.symm

/-- The scope of a binder fits if the scope around it does. -/
theorem fit {scope : Scope} (h : Renaming σ ns ms s s') (hs : s.Precedes s') (hf : scope.Fit s) :
    Fit (σ ++ scope) s' := by
  refine ⟨?_, fun m hm => ?_, fun m hm => ?_⟩
  · rw [news_append, List.nodup_append]
    refine ⟨h.news_nodup, hf.nodup, fun m hm k hk e => ?_⟩
    exact h.not_used hm (e ▸ hf.used k hk)
  · rw [news_append, List.mem_append] at hm
    exact hm.elim h.used fun hm => (hf.used m hm).mono hs
  · rw [news_append, List.mem_append] at hm
    rw [hs.avoid_eq]
    exact hm.elim (fun hm ha => h.not_used hm (.inl ha)) (hf.not_avoided m)

end Renaming

end Scope

namespace Term

/-! ### Binders -/

/-- The names of the patterns of binders, from left to right. -/
def boundNames : Term → List String
  | .name _ | .const _ | .var _ => []
  | .unary _ x => x.boundNames
  | .binary _ x y => x.boundNames ++ y.boundNames
  | .lambda p e => p.payloads ++ e.boundNames
  | .letrec p d e => p.payloads ++ d.boundNames ++ e.boundNames

/-- No binder binds a name twice. -/
def LinearBinders : Term → Prop
  | .name _ | .const _ | .var _ => True
  | .unary _ x => x.LinearBinders
  | .binary _ x y => x.LinearBinders ∧ y.LinearBinders
  | .lambda p e => p.payloads.Nodup ∧ e.LinearBinders
  | .letrec p d e => p.payloads.Nodup ∧ d.LinearBinders ∧ e.LinearBinders

theorem linearBinders_of_nodup_boundNames {t : Term} (h : t.boundNames.Nodup) : t.LinearBinders := by
  induction t with
  | name _ | const _ | var _ => trivial
  | unary _ _ ih => exact ih h
  | binary _ _ _ ihx ihy =>
    obtain ⟨hx, hy, -⟩ := List.nodup_append.1 h
    exact ⟨ihx hx, ihy hy⟩
  | lambda p e _ ihe =>
    obtain ⟨hp, he, -⟩ := List.nodup_append.1 h
    exact ⟨hp, ihe he⟩
  | letrec p d e _ ihd ihe =>
    obtain ⟨hpd, he, -⟩ := List.nodup_append.1 h
    obtain ⟨hp, hd, -⟩ := List.nodup_append.1 hpd
    exact ⟨hp, ihd hd, ihe he⟩

/-! ### Patterns -/

/-- The error says that one binder binds a name twice. -/
def BoundTwice (e : Error) : Prop := ∃ n, e = .invalidVariable (.boundTwice n)

/-- The pattern `q` is the pattern `p` with the new names of `σ`, which are drawn from `s`. -/
structure PatternRenaming (p q : Term) (σ : Scope) (s s' : NameSupply) : Prop
    extends Scope.Renaming σ p.payloads q.payloads s s' where
  /-- The new pattern is well formed. -/
  wellFormed : q.WellFormed
  /-- Patterns have one form in scopes that do not tell a name from its new name. -/
  nameless_eq : ∀ Γ Δ, (∀ n m, (n, m) ∈ σ → resolve Γ n = resolve Δ m) → p.nameless Γ = q.nameless Δ

namespace PatternRenaming

variable {p q x x' y y' : Term} {σ τ υ : Scope} {s s₁ s₂ s₃ : NameSupply}

theorem olds_eq_binders (h : PatternRenaming p q σ s s₁) : σ.olds = p.binders := h.olds_eq

theorem news_eq_binders (h : PatternRenaming p q σ s s₁) : σ.news = q.binders := h.news_eq

theorem payloads_nodup (h : PatternRenaming p q σ s s₁) : p.payloads.Nodup :=
  List.nodup_reverse.1 (h.olds_eq ▸ h.olds_nodup)

/-- The pattern in the scope of its names has the form of the new pattern in the scope of the new names. -/
theorem nameless_binders (h : PatternRenaming p q σ s s₁) : q.nameless q.binders = p.nameless p.binders := by
  rw [← h.olds_eq_binders, ← h.news_eq_binders]
  refine (h.nameless_eq _ _ fun n m hm => ?_).symm
  exact Scope.resolve_lookup h.news_nodup (Scope.lookup_of_mem h.olds_nodup hm)

/-- What stands below a binder that is itself part of a pattern: its names are not those of the binder. -/
theorem nameless_below (hp : PatternRenaming p q σ s s₁) (hx : PatternRenaming x x' τ s₂ s₃)
    (hs : s₁.Precedes s₂) (hd : ∀ n ∈ τ.olds, n ∉ σ.olds) {Γ Δ : List String}
    (h : ∀ n m, (n, m) ∈ τ → resolve Γ n = resolve Δ m) :
    x.nameless (p.binders ++ Γ) = x'.nameless (q.binders ++ Δ) := by
  rw [← hp.olds_eq_binders, ← hp.news_eq_binders]
  refine hx.nameless_eq _ _ fun n m hm => ?_
  have hl : σ.olds.length = σ.news.length := by rw [Scope.olds, Scope.news, List.length_map, List.length_map]
  refine resolve_append_of_not_mem hl (hd n (Scope.mem_olds_of_mem hm)) (fun hmem => ?_) (h n m hm)
  exact hx.not_used (Scope.mem_news_of_mem hm) ((hp.used hmem).mono hs)

theorem binary {b : Binary} (hx : PatternRenaming x x' σ s s₁) (hy : PatternRenaming y y' τ s₁ s₂)
    (hd : (Scope.olds (τ ++ σ)).Nodup) : PatternRenaming (.binary b x y) (.binary b x' y') (τ ++ σ) s s₂ where
  toRenaming := hx.append hy.toRenaming hd
  wellFormed := ⟨hx.wellFormed, hy.wellFormed⟩
  nameless_eq Γ Δ h := by
    rw [nameless, nameless, hx.nameless_eq Γ Δ fun n m hm => h n m (List.mem_append_right τ hm),
      hy.nameless_eq Γ Δ fun n m hm => h n m (List.mem_append_left σ hm)]

theorem lambda (hp : PatternRenaming p q σ s s₁) (hx : PatternRenaming x x' τ s₁ s₂)
    (hd : (Scope.olds (τ ++ σ)).Nodup) : PatternRenaming (.lambda p x) (.lambda q x') (τ ++ σ) s s₂ where
  toRenaming := hp.append hx.toRenaming hd
  wellFormed := ⟨hp.wellFormed, hx.wellFormed⟩
  nameless_eq Γ Δ h := by
    rw [Scope.olds_append] at hd
    rw [nameless, nameless, hp.length_eq, hp.nameless_binders,
      hp.nameless_below hx (.refl s₁) (fun n hn => (List.disjoint_of_nodup_append hd) hn)
        fun n m hm => h n m (List.mem_append_left σ hm)]

theorem letrec (hp : PatternRenaming p q σ s s₁) (hx : PatternRenaming x x' τ s₁ s₂)
    (hy : PatternRenaming y y' υ s₂ s₃) (hs : s₁.Precedes s₂) (hd : (Scope.olds (υ ++ (τ ++ σ))).Nodup) :
    PatternRenaming (.letrec p x y) (.letrec q x' y') (υ ++ (τ ++ σ)) s s₃ where
  toRenaming := by
    have hτσ := hd
    rw [Scope.olds_append] at hτσ
    exact (hp.append hx.toRenaming hτσ.of_append_right).append hy.toRenaming hd
  wellFormed := ⟨hp.wellFormed, hx.wellFormed, hy.wellFormed⟩
  nameless_eq Γ Δ h := by
    rw [Scope.olds_append, Scope.olds_append] at hd
    have hxσ := List.disjoint_of_nodup_append hd.of_append_right
    have hyσ := (List.disjoint_append_right.1 (List.disjoint_of_nodup_append hd)).2
    rw [nameless, nameless, hp.length_eq, hp.nameless_binders,
      hp.nameless_below hx (.refl s₁) (fun n hn => hxσ hn)
        fun n m hm => h n m (List.mem_append_right υ (List.mem_append_left σ hm)),
      hp.nameless_below hy hs (fun n hn => hyσ hn) fun n m hm => h n m (List.mem_append_left _ hm)]

end PatternRenaming

theorem binders_binary (b : Binary) (x y : Term) : (Term.binary b x y).binders = y.binders ++ x.binders :=
  List.reverse_append

theorem binders_lambda (p e : Term) : (Term.lambda p e).binders = e.binders ++ p.binders := List.reverse_append

theorem binders_letrec (p d e : Term) : (Term.letrec p d e).binders = e.binders ++ (d.binders ++ p.binders) := by
  rw [binders, payloads, List.reverse_append, List.reverse_append]
  rfl

/-- A pattern is renamed, unless a name stands in it twice or is bound already. -/
def Renamable (p : Term) : Prop :=
  ∀ (bound : Scope) (s : NameSupply), bound.olds.Nodup → Ensures s (p.canonicalPattern bound)
    (fun r s' => ∃ σ : Scope, r.2 = σ ++ bound ∧ r.2.olds.Nodup ∧ PatternRenaming p r.1 σ s s')
    fun e => BoundTwice e ∧ ¬(p.binders ++ bound.olds).Nodup

/-- Renaming the first part of a pattern, with the names `l` in the parts that follow. -/
theorem Renamable.bind {x : Term} (hx : x.Renamable) {bound : Scope} (hbound : bound.olds.Nodup) {s : NameSupply}
    {α : Type} {k : Term × Scope → Fresh α} {Q : α → NameSupply → Prop} {l : List String}
    (hk : ∀ x' σ s', s.Precedes s' → (Scope.olds (σ ++ bound)).Nodup → PatternRenaming x x' σ s s' →
      Ensures s' (k (x', σ ++ bound)) Q fun e => BoundTwice e ∧ ¬(l ++ Scope.olds (σ ++ bound)).Nodup) :
    Ensures s (x.canonicalPattern bound >>= k) Q
      fun e => BoundTwice e ∧ ¬(l ++ (x.binders ++ bound.olds)).Nodup := by
  have hfirst := (hx bound s hbound).mono_error (F := fun e =>
    BoundTwice e ∧ ¬(l ++ (x.binders ++ bound.olds)).Nodup) fun e he => ⟨he.1, fun h => he.2 h.of_append_right⟩
  refine .bind hfirst fun r s' hs hr => ?_
  obtain ⟨x', _⟩ := r
  obtain ⟨σ, rfl, hd, hx'⟩ := hr
  rw [← hx'.olds_eq_binders, ← Scope.olds_append]
  exact hk x' σ s' hs hd hx'

theorem renamable {p : Term} (hw : p.WellFormed) : p.Renamable := by
  induction p with
  | name _ => exact hw.elim
  | const o =>
    intro bound s hbound
    exact .pure ⟨[], rfl, hbound, ⟨rfl, rfl, List.nodup_nil, .nil⟩, trivial, fun _ _ _ => rfl⟩
  | var n =>
    intro bound s hbound
    rw [canonicalPattern]
    split
    · next hn =>
      have hn : n ∈ bound.olds := by
        by_contra h
        rw [Scope.lookup_eq_none_iff.2 h] at hn
        cases hn
      exact .bind (P := fun _ _ => False) (.throw ⟨⟨n, rfl⟩, fun h => (List.nodup_cons.1 h).1 hn⟩)
        fun _ _ _ h => h.elim
    · next hn =>
      have hn : n ∉ bound.olds := Scope.lookup_eq_none_iff.1 (Option.not_isSome_iff_eq_none.1 hn)
      exact .bind .name fun m s₁ _ hm => .pure ⟨[(n, m)], rfl, List.nodup_cons.2 ⟨hn, hbound⟩,
        ⟨rfl, rfl, List.nodup_singleton n, hm⟩, trivial, fun Γ Δ h => h n m List.mem_cons_self⟩
  | unary u x ih =>
    intro bound s hbound
    refine (ih hw).bind (l := []) hbound fun x' σ s₁ _ hd hx => .pure ⟨σ, rfl, hd, hx.toRenaming, hx.wellFormed, ?_⟩
    intro Γ Δ h
    rw [nameless, nameless, hx.nameless_eq Γ Δ h]
  | binary b x y ihx ihy =>
    intro bound s hbound
    rw [binders_binary, List.append_assoc]
    refine (ihx hw.1).bind hbound fun x' σ s₁ _ hd hx =>
      (ihy hw.2).bind (l := []) hd fun y' τ s₂ _ hd hy => .pure ⟨τ ++ σ, ?_, hd, ?_⟩
    · exact (List.append_assoc τ σ bound).symm
    · rw [← List.append_assoc, Scope.olds_append] at hd
      exact hx.binary hy hd.of_append_left
  | lambda p e ihp ihe =>
    intro bound s hbound
    rw [binders_lambda, List.append_assoc]
    refine (ihp hw.1).bind hbound fun p' σ s₁ _ hd hp =>
      (ihe hw.2).bind (l := []) hd fun e' τ s₂ _ hd he => .pure ⟨τ ++ σ, ?_, hd, ?_⟩
    · exact (List.append_assoc τ σ bound).symm
    · rw [← List.append_assoc, Scope.olds_append] at hd
      exact hp.lambda he hd.of_append_left
  | letrec p d e ihp ihd ihe =>
    intro bound s hbound
    rw [binders_letrec, List.append_assoc, List.append_assoc, ← List.append_assoc]
    refine (ihp hw.1).bind hbound fun p' σ s₁ _ hd hp => ?_
    rw [List.append_assoc]
    refine (ihd hw.2.1).bind hd fun d' τ s₂ h₂ hd hx =>
      (ihe hw.2.2).bind (l := []) hd fun e' υ s₃ _ hd he => .pure ⟨υ ++ (τ ++ σ), ?_, hd, ?_⟩
    · rw [List.append_assoc, List.append_assoc]
    · rw [← List.append_assoc τ, ← List.append_assoc, Scope.olds_append] at hd
      exact hp.letrec hx he h₂ hd.of_append_left

theorem ensures_canonicalPattern {p : Term} (hw : p.WellFormed) (s : NameSupply) :
    Ensures s (p.canonicalPattern []) (fun r s' => PatternRenaming p r.1 r.2 s s')
      fun e => BoundTwice e ∧ ¬p.payloads.Nodup := by
  have hnil : (Scope.olds []).Nodup := List.nodup_nil
  refine ((renamable hw [] s hnil).mono fun r s' hr => ?_).mono_error fun e he => ⟨he.1, fun h => he.2 ?_⟩
  · obtain ⟨σ, heq, -, hp⟩ := hr
    rw [List.append_nil] at heq
    exact heq ▸ hp
  · rw [Scope.olds, List.map_nil, List.append_nil]
    exact List.nodup_reverse.2 h

/-! ### Terms -/

/-- Every free variable is renamed by the scope, or is a name to be avoided. -/
def Covered (t : Term) (scope : Scope) (s : NameSupply) : Prop :=
  ∀ n ∈ t.freeOccurrences, n ∈ scope.olds ∨ n ∈ s.avoid

theorem Covered.mono {t : Term} {scope : Scope} {s s' : NameSupply} (h : t.Covered scope s)
    (hs : s.Precedes s') : t.Covered scope s' :=
  fun n hn => hs.avoid_eq ▸ h n hn

theorem covered_append {t p q : Term} {σ scope : Scope} {s s' : NameSupply} (h : PatternRenaming p q σ s s')
    (hs : s.Precedes s') (hc : ∀ n ∈ t.freeOccurrences, n ∉ p.payloads → n ∈ scope.olds ∨ n ∈ s.avoid) :
    t.Covered (σ ++ scope) s' := by
  intro n hn
  rw [Scope.olds_append, List.mem_append, h.olds_eq_binders, mem_binders, hs.avoid_eq]
  by_cases hp : n ∈ p.payloads
  · exact .inl (.inl hp)
  · exact (hc n hn hp).imp_left .inr

/-- The term `u` is the term `t` in the given scope with new names for its binders, which are drawn from `s`. -/
structure BinderRenaming (t u : Term) (scope : Scope) (s s' : NameSupply) : Prop where
  /-- No binder binds a name twice. -/
  linear : t.LinearBinders
  /-- The new term is well formed. -/
  wellFormed : u.WellFormed
  /-- The new names are drawn in the order of the binders. -/
  gives : s.Gives u.boundNames s'
  /-- Nothing but names is changed. -/
  nameless_eq : u.nameless scope.news = t.nameless scope.olds

theorem ensures_canonicalIn {t : Term} (ht : t.WellFormed) {scope : Scope} {s : NameSupply} (hf : scope.Fit s)
    (hc : t.Covered scope s) :
    Ensures s (t.canonicalIn scope) (fun u s' => BinderRenaming t u scope s s')
      fun e => BoundTwice e ∧ ¬t.LinearBinders := by
  induction t generalizing scope s with
  | name n => exact ht.elim
  | const o => exact .pure ⟨trivial, trivial, .nil, rfl⟩
  | var n =>
    refine .pure ⟨trivial, trivial, .nil, ?_⟩
    cases hl : scope.lookup n with
    | some m => exact (Scope.resolve_lookup hf.nodup hl).symm
    | none =>
      have hn := Scope.lookup_eq_none_iff.1 hl
      have ha := (hc n (by simp [freeOccurrences])).resolve_left hn
      have hn' : n ∉ scope.news := fun h => hf.not_avoided n h ha
      rw [Option.getD_none, nameless, nameless, resolve_of_not_mem hn, resolve_of_not_mem hn']
  | unary u x ih =>
    refine .bind (ih ht hf hc) fun x' s₁ _ hx => .pure ⟨hx.linear, hx.wellFormed, hx.gives, ?_⟩
    rw [nameless, nameless, hx.nameless_eq]
  | binary b x y ihx ihy =>
    have hcx : x.Covered scope s := fun n hn => hc n (mem_freeOccurrences_binary.2 (.inl hn))
    have hcy : y.Covered scope s := fun n hn => hc n (mem_freeOccurrences_binary.2 (.inr hn))
    refine .bind ((ihx ht.1 hf hcx).mono_error fun e he => ⟨he.1, fun h => he.2 h.1⟩) fun x' s₁ h₁ hx => ?_
    refine .bind ((ihy ht.2 (hf.mono h₁) (hcy.mono h₁)).mono_error fun e he => ⟨he.1, fun h => he.2 h.2⟩)
      fun y' s₂ _ hy => .pure ⟨⟨hx.linear, hy.linear⟩, ⟨hx.wellFormed, hy.wellFormed⟩, hx.gives.append hy.gives, ?_⟩
    rw [nameless, nameless, hx.nameless_eq, hy.nameless_eq]
  | lambda p e _ ihe =>
    refine .bind ((ensures_canonicalPattern ht.1 s).mono_error fun e he => ⟨he.1, fun h => he.2 h.1⟩)
      fun r s₁ h₁ hp => ?_
    obtain ⟨q, σ⟩ := r
    have hce : e.Covered (σ ++ scope) s₁ :=
      covered_append hp h₁ fun n hn hnp => hc n (by simp [freeOccurrences, hn, hnp])
    refine .bind ((ihe ht.2 (hp.fit h₁ hf) hce).mono_error fun e he => ⟨he.1, fun h => he.2 h.2⟩)
      fun e' s₂ _ he => .pure ⟨⟨hp.payloads_nodup, he.linear⟩, ⟨hp.wellFormed, he.wellFormed⟩,
        hp.gives.append he.gives, ?_⟩
    rw [nameless, nameless, hp.length_eq, hp.nameless_binders, ← hp.olds_eq_binders, ← hp.news_eq_binders,
      ← Scope.olds_append, ← Scope.news_append, he.nameless_eq]
  | letrec p d e _ ihd ihe =>
    refine .bind ((ensures_canonicalPattern ht.1 s).mono_error fun e he => ⟨he.1, fun h => he.2 h.1⟩)
      fun r s₁ h₁ hp => ?_
    obtain ⟨q, σ⟩ := r
    have hcd : d.Covered (σ ++ scope) s₁ :=
      covered_append hp h₁ fun n hn hnp => hc n (by simp [freeOccurrences, hn, hnp])
    have hce : e.Covered (σ ++ scope) s₁ :=
      covered_append hp h₁ fun n hn hnp => hc n (by simp [freeOccurrences, hn, hnp])
    have hf := hp.fit h₁ hf
    refine .bind ((ihd ht.2.1 hf hcd).mono_error fun e he => ⟨he.1, fun h => he.2 h.2.1⟩) fun d' s₂ h₂ hd => ?_
    refine .bind ((ihe ht.2.2 (hf.mono h₂) (hce.mono h₂)).mono_error fun e he => ⟨he.1, fun h => he.2 h.2.2⟩)
      fun e' s₃ _ he => .pure ⟨⟨hp.payloads_nodup, hd.linear, he.linear⟩,
        ⟨hp.wellFormed, hd.wellFormed, he.wellFormed⟩, (hp.gives.append hd.gives).append he.gives, ?_⟩
    rw [nameless, nameless, hp.length_eq, hp.nameless_binders, ← hp.olds_eq_binders, ← hp.news_eq_binders,
      ← Scope.olds_append, ← Scope.news_append, hd.nameless_eq, he.nameless_eq]

/-! ### Canonical forms -/

/-- The term `r` is `t` up to the choice of bound names, and its binders have the first names that are not free. -/
structure CanonicalForm (t r : Term) : Prop where
  /-- The form is well formed. -/
  wellFormed : r.WellFormed
  /-- Nothing but bound names is changed. -/
  alphaEq : AlphaEq r t
  /-- The bound names are the first ones that are not free. -/
  gives : ∃ s, (NameSupply.avoiding t.freeNames).Gives r.boundNames s

theorem ensures_canonical {t : Term} (ht : t.WellFormed) :
    Ensures (.avoiding t.freeNames) (t.canonicalIn [])
      (fun r s' => BinderRenaming t r [] (.avoiding t.freeNames) s')
      fun e => BoundTwice e ∧ ¬t.LinearBinders :=
  ensures_canonicalIn ht (Scope.fit_nil _) fun _ hn => .inr (mem_freeNames.2 hn)

theorem canonicalForm_canonical {t r : Term} (ht : t.WellFormed) (h : t.canonical = .ok r) :
    t.LinearBinders ∧ CanonicalForm t r := by
  obtain ⟨-, hr⟩ := (ensures_canonical ht).of_ok (Prod.ext h rfl)
  exact ⟨hr.linear, hr.wellFormed, hr.nameless_eq, _, hr.gives⟩

theorem boundTwice_canonical {t : Term} {e : Error} (ht : t.WellFormed) (h : t.canonical = .error e) :
    BoundTwice e ∧ ¬t.LinearBinders :=
  (ensures_canonical ht).of_error (Prod.ext h rfl)

theorem exists_canonical {t : Term} (ht : t.WellFormed) (hl : t.LinearBinders) : ∃ r, t.canonical = .ok r := by
  cases h : t.canonical with
  | ok r => exact ⟨r, rfl⟩
  | error e => exact absurd hl (boundTwice_canonical ht h).2

end Term

end Combinatory
