import Combinatory.Pattern.RuleTable
import Combinatory.Proofs.Parsing
import Mathlib.Data.List.Nodup

/-!
# Matching

Matching a pattern against a term finds the bindings that turn the pattern into the term, and there are no others.

## The model

`Pattern.holes` lists the variables of a pattern with their constraints. `Pattern.instantiate` puts terms for the
variables; it is the inverse that matching is measured by, and does not look at constraints. A node pattern has a head by
spelling, so `Term.ofParts?` gives the node with this head and the terms below it, if there is one.

A list of bindings `Pattern.Solves` a pattern for a term if it binds the variables in their order, each to a term that
meets its constraint, and turns the pattern into the term. `Pattern.bind` collects bindings behind those made so far, and
a variable is looked up among all of them. As long as no variable stands twice, the bindings of one child do not hide
those of another, and solutions are put together and taken apart child by child (`solvesAll_cons`).

## What is proved

* `Pattern.bind_eq_some_iff_solves` — for a pattern in which no variable stands twice, matching finds the solution.
* `RuleTable.applyRules_eq_firstCommitted` — a table tries the handlers of the rules whose patterns unify.
* `Pattern.unify_sound_complete` — both for `Pattern.unify` and for tables.
-/

namespace Combinatory

namespace Term

/-- The node with the given head and terms below it. A constant is no node. -/
def ofParts? (s : String) (args : List Term) : Option Term :=
  match Head.ofSpelling? s, args with
  | some .var, [.name n] => some (.var n)
  | some (.unary u), [x] => some (.unary u x)
  | some (.binary b), [x, y] => some (.binary b x y)
  | some .lambda, [p, e] => some (.lambda p e)
  | some .letrec, [p, d, e] => some (.letrec p d e)
  | _, _ => none

end Term

namespace Pattern

variable {p : Pattern} {ps : List Pattern} {t : Term} {ts : List Term} {b b' : Bindings} {σ τ : String → Option Term}

/-- Nodes are taken apart as they are put together. -/
theorem nodeParts?_eq_some_iff {h : String} : nodeParts? t = some (h, ts) ↔ Term.ofParts? h ts = some t := by
  constructor
  · intro ht
    cases t <;> cases ht <;> simp only [Term.ofParts?, Head.ofSpelling?_spelling]
  · intro ht
    unfold Term.ofParts? at ht
    split at ht <;> cases ht
    all_goals
      next hs =>
      rw [← Head.spelling_of_ofSpelling? hs]
      rfl

/-! ### Variables -/

mutual

/-- The variables with their constraints, from left to right. -/
def holes : Pattern → List (String × Option (Term → Bool))
  | .literal _ => []
  | .var n c => [(n, c)]
  | .node _ ps => holesAll ps

/-- The variables of several patterns with their constraints. -/
def holesAll : List Pattern → List (String × Option (Term → Bool))
  | [] => []
  | p :: ps => p.holes ++ holesAll ps

end

mutual

theorem map_fst_holes : ∀ p : Pattern, p.holes.map Prod.fst = p.variableNames
  | .literal _ | .var _ _ => rfl
  | .node _ ps => map_fst_holesAll ps

theorem map_fst_holesAll : ∀ ps : List Pattern, (holesAll ps).map Prod.fst = variableNamesAll ps
  | [] => rfl
  | p :: ps => by rw [holesAll, List.map_append, map_fst_holes p, map_fst_holesAll ps, variableNamesAll]

end

theorem firstRepeated_eq_none_iff {seen names : List String} :
    firstRepeated seen names = none ↔ names.Nodup ∧ ∀ n ∈ names, n ∉ seen := by
  induction names generalizing seen with
  | nil => simp [firstRepeated]
  | cons n ns ih =>
    rw [firstRepeated]
    split
    · next hn => simp [hn]
    · next hn =>
      rw [ih, List.nodup_cons]
      simp only [List.mem_cons, not_or, forall_eq_or_imp]
      grind

theorem isLinear_iff : p.isLinear = true ↔ p.variableNames.Nodup := by
  rw [isLinear, Option.isNone_iff_eq_none, repeated?, firstRepeated_eq_none_iff]
  simp

/-! ### Instances -/

mutual

/-- The pattern with terms for its variables. -/
def instantiate (σ : String → Option Term) : Pattern → Option Term
  | .literal t => some t
  | .var n _ => σ n
  | .node h ps => (instantiateAll σ ps).bind (Term.ofParts? h)

/-- Several patterns with terms for their variables. -/
def instantiateAll (σ : String → Option Term) : List Pattern → Option (List Term)
  | [] => some []
  | p :: ps => (p.instantiate σ).bind fun t => (instantiateAll σ ps).map (t :: ·)

end

mutual

theorem instantiate_congr : ∀ {p : Pattern}, (∀ n ∈ p.variableNames, σ n = τ n) → p.instantiate σ = p.instantiate τ
  | .literal _, _ => rfl
  | .var n _, h => h n List.mem_cons_self
  | .node _ ps, h => by rw [instantiate, instantiate, instantiateAll_congr h]

theorem instantiateAll_congr : ∀ {ps : List Pattern}, (∀ n ∈ variableNamesAll ps, σ n = τ n) →
    instantiateAll σ ps = instantiateAll τ ps
  | [], _ => rfl
  | p :: ps, h => by
    rw [variableNamesAll, List.forall_mem_append] at h
    rw [instantiateAll, instantiateAll, instantiate_congr h.1, instantiateAll_congr h.2]

end

/-! ### Solutions -/

/-- The terms for the variables meet their constraints. -/
def Meets (σ : String → Option Term) (vs : List (String × Option (Term → Bool))) : Prop :=
  ∀ v ∈ vs, ∀ s, σ v.1 = some s → v.2.all (· s) = true

theorem Meets.congr {vs : List (String × Option (Term → Bool))} (h : Meets σ vs)
    (hστ : ∀ n ∈ vs.map Prod.fst, σ n = τ n) : Meets τ vs := by
  intro v hv s hs
  refine h v hv s ?_
  rw [hστ v.1 (List.mem_map_of_mem hv), hs]

/-- The terms for the variables meet their constraints and turn the pattern into the term. -/
def Fits (σ : String → Option Term) (p : Pattern) (t : Term) : Prop := Meets σ p.holes ∧ p.instantiate σ = some t

/-- `Fits` for several patterns. -/
def FitsAll (σ : String → Option Term) (ps : List Pattern) (ts : List Term) : Prop :=
  Meets σ (holesAll ps) ∧ instantiateAll σ ps = some ts

theorem fitsAll_nil : FitsAll σ [] ts ↔ ts = [] := by
  simp only [FitsAll, Meets, holesAll, instantiateAll, List.not_mem_nil, false_implies, implies_true, true_and,
    Option.some.injEq]
  exact eq_comm

theorem fitsAll_cons : FitsAll σ (p :: ps) (t :: ts) ↔ Fits σ p t ∧ FitsAll σ ps ts := by
  simp only [FitsAll, Fits, Meets, holesAll, List.forall_mem_append, instantiateAll, Option.bind_eq_some_iff,
    Option.map_eq_some_iff, List.cons.injEq]
  constructor
  · rintro ⟨⟨hp, hps⟩, u, hu, us, hus, rfl, rfl⟩
    exact ⟨⟨hp, hu⟩, hps, hus⟩
  · rintro ⟨⟨hp, hu⟩, hps, hus⟩
    exact ⟨⟨hp, hps⟩, t, hu, ts, hus, rfl, rfl⟩

theorem not_fitsAll_cons_nil : ¬FitsAll σ (p :: ps) [] := by
  rintro ⟨-, h⟩
  simp [instantiateAll, Option.bind_eq_some_iff] at h

theorem fits_node {h : String} : Fits σ (.node h ps) t ↔ ∃ ts, nodeParts? t = some (h, ts) ∧ FitsAll σ ps ts := by
  simp only [Fits, FitsAll, holes, instantiate, Option.bind_eq_some_iff, nodeParts?_eq_some_iff]
  constructor
  · rintro ⟨hmeets, ts, hts, ht⟩
    exact ⟨ts, ht, hmeets, hts⟩
  · rintro ⟨ts, ht, hmeets, hts⟩
    exact ⟨hmeets, ts, hts, ht⟩

theorem Fits.congr (h : Fits σ p t) (hστ : ∀ n ∈ p.variableNames, σ n = τ n) : Fits τ p t :=
  ⟨h.1.congr (map_fst_holes p ▸ hστ), (instantiate_congr hστ).symm.trans h.2⟩

theorem FitsAll.congr (h : FitsAll σ ps ts) (hστ : ∀ n ∈ variableNamesAll ps, σ n = τ n) : FitsAll τ ps ts :=
  ⟨h.1.congr (map_fst_holesAll ps ▸ hστ), (instantiateAll_congr hστ).symm.trans h.2⟩

/-- The bindings are for the variables of the pattern, in their order, and turn it into the term. -/
def Solves (b : Bindings) (p : Pattern) (t : Term) : Prop := b.map Prod.fst = p.variableNames ∧ Fits b.term? p t

/-- `Solves` for several patterns. -/
def SolvesAll (b : Bindings) (ps : List Pattern) (ts : List Term) : Prop :=
  b.map Prod.fst = variableNamesAll ps ∧ FitsAll b.term? ps ts

theorem term?_append_left {n : String} (hn : n ∈ b.map Prod.fst) : Bindings.term? (b ++ b') n = b.term? n := by
  obtain ⟨q, hq, rfl⟩ := List.mem_map.1 hn
  have hsome : (b.lookup q.1).isSome = true := List.lookup_isSome_iff.2 ⟨q, hq, beq_self_eq_true _⟩
  rw [Bindings.term?, Bindings.term?, List.lookup_append, Option.or_of_isSome hsome]

theorem term?_append_right {n : String} (hn : n ∉ b.map Prod.fst) : Bindings.term? (b ++ b') n = b'.term? n := by
  have hnone : b.lookup n = none := by
    refine List.lookup_eq_none_iff.2 fun q hq => bne_iff_ne.2 ?_
    rintro rfl
    exact hn (List.mem_map_of_mem hq)
  rw [Bindings.term?, Bindings.term?, List.lookup_append, hnone, Option.none_or]

/-- **Children**: as long as no variable stands twice, a solution for several patterns is made of one for each. -/
theorem solvesAll_cons (hnodup : (variableNamesAll (p :: ps)).Nodup) :
    SolvesAll b (p :: ps) (t :: ts) ↔ ∃ b₁ b₂, Solves b₁ p t ∧ SolvesAll b₂ ps ts ∧ b₁ ++ b₂ = b := by
  have hdisjoint := List.disjoint_of_nodup_append hnodup
  -- a variable of `p` is found in the first part already, and one of `ps` in the second part only
  have left {b₁ b₂ : Bindings} (h₁ : b₁.map Prod.fst = p.variableNames) (n : String) (hn : n ∈ p.variableNames) :
      Bindings.term? (b₁ ++ b₂) n = b₁.term? n :=
    term?_append_left (h₁ ▸ hn)
  have right {b₁ b₂ : Bindings} (h₁ : b₁.map Prod.fst = p.variableNames) (n : String)
      (hn : n ∈ variableNamesAll ps) : Bindings.term? (b₁ ++ b₂) n = b₂.term? n :=
    term?_append_right fun hmem => hdisjoint (h₁ ▸ hmem) hn
  constructor
  · rintro ⟨hkeys, hfits⟩
    obtain ⟨b₁, b₂, rfl, h₁, h₂⟩ := List.map_eq_append_iff.1 hkeys
    obtain ⟨hp, hps⟩ := fitsAll_cons.1 hfits
    exact ⟨b₁, b₂, ⟨h₁, hp.congr (left h₁)⟩, ⟨h₂, hps.congr (right h₁)⟩, rfl⟩
  · rintro ⟨b₁, b₂, ⟨h₁, hp⟩, ⟨h₂, hps⟩, rfl⟩
    refine ⟨List.map_eq_append_iff.2 ⟨b₁, b₂, rfl, h₁, h₂⟩, fitsAll_cons.2 ⟨?_, ?_⟩⟩
    · exact hp.congr fun n hn => (left h₁ n hn).symm
    · exact hps.congr fun n hn => (right h₁ n hn).symm

/-! ### Matching -/

mutual

/-- Matching puts its bindings behind those made so far, and does not look at these. -/
theorem bind_append : ∀ (p : Pattern) (t : Term) (acc : Bindings), p.bind t acc = (p.bind t []).map (acc ++ ·)
  | .literal l, t, acc => by
    rw [bind, bind]
    split <;> simp
  | .var n c, t, acc => by
    rw [bind, bind]
    split <;> simp
  | .node h ps, t, acc => by
    rw [bind, bind]
    split
    · rfl
    · split
      · exact bindAll_append ps _ acc
      · rfl

theorem bindAll_append : ∀ (ps : List Pattern) (ts : List Term) (acc : Bindings),
    bindAll ps ts acc = (bindAll ps ts []).map (acc ++ ·)
  | [], [], acc => by simp [bindAll]
  | [], _ :: _, acc | _ :: _, [], acc => rfl
  | p :: ps, t :: ts, acc => by
    rw [bindAll, bindAll, bind_append p t acc]
    cases p.bind t [] with
    | none => rfl
    | some b₁ =>
      -- `ps` is matched with what `p` has bound in front
      simp only [Option.map_some, Option.bind_some]
      rw [bindAll_append ps ts (acc ++ b₁), bindAll_append ps ts b₁, Option.map_map]
      simp [Function.comp_def]

end

theorem bindAll_cons_eq_some_iff : bindAll (p :: ps) (t :: ts) [] = some b ↔
    ∃ b₁ b₂, p.bind t [] = some b₁ ∧ bindAll ps ts [] = some b₂ ∧ b₁ ++ b₂ = b := by
  rw [bindAll]
  constructor
  · intro h
    obtain ⟨b₁, h₁, h₂⟩ := Option.bind_eq_some_iff.1 h
    rw [bindAll_append] at h₂
    obtain ⟨b₂, h₃, rfl⟩ := Option.map_eq_some_iff.1 h₂
    exact ⟨b₁, b₂, h₁, h₃, rfl⟩
  · rintro ⟨b₁, b₂, h₁, h₂, rfl⟩
    rw [h₁, Option.bind_some, bindAll_append, h₂, Option.map_some]

theorem bind_node_eq_some_iff {h : String} : (Pattern.node h ps).bind t [] = some b ↔
    ∃ ts, nodeParts? t = some (h, ts) ∧ bindAll ps ts [] = some b := by
  rw [bind]
  cases nodeParts? t with
  | none => simp
  | some parts =>
    obtain ⟨k, ts⟩ := parts
    by_cases hk : k = h
    · simp [hk]
    · simp [hk]

theorem bind_var_eq_some_iff {n : String} {c : Option (Term → Bool)} :
    (Pattern.var n c).bind t [] = some b ↔ Solves b (.var n c) t := by
  rw [bind]
  constructor
  · intro h
    split at h
    · next hc =>
      cases h
      have hlookup : Bindings.term? [(n, t)] n = some t := by simp [Bindings.term?]
      refine ⟨rfl, ?_, hlookup⟩
      intro v hv s hs
      obtain rfl := List.mem_singleton.1 hv
      cases hlookup.symm.trans hs
      exact hc
    · cases h
  · rintro ⟨hkeys, hmeets, hinst⟩
    obtain ⟨⟨k, s⟩, rfl, rfl⟩ := List.map_eq_singleton_iff.1 hkeys
    obtain rfl : s = t := by simpa [instantiate, Bindings.term?] using hinst
    rw [if_pos (hmeets _ List.mem_cons_self s hinst), List.nil_append]

mutual

/-- **Matching finds the solutions**: for a pattern in which no variable stands twice, what it binds is a solution, and
every solution is what it binds. -/
theorem bind_eq_some_iff_solves : ∀ {p : Pattern} {t : Term} {b : Bindings}, p.variableNames.Nodup →
    (p.bind t [] = some b ↔ Solves b p t)
  | .literal l, t, b, _ => by
    simp only [bind, Solves, Fits, Meets, variableNames, holes, instantiate, List.map_eq_nil_iff, List.not_mem_nil,
      false_implies, implies_true, true_and, Option.some.injEq]
    by_cases hl : l = t
    · simp [hl, eq_comm]
    · simp [hl]
  | .var n c, t, b, _ => bind_var_eq_some_iff
  | .node h ps, t, b, hp => by
    rw [Solves, fits_node, bind_node_eq_some_iff, ← exists_and_left]
    refine exists_congr fun ts => ?_
    rw [bindAll_eq_some_iff_solvesAll hp]
    exact and_left_comm

theorem bindAll_eq_some_iff_solvesAll : ∀ {ps : List Pattern} {ts : List Term} {b : Bindings},
    (variableNamesAll ps).Nodup → (bindAll ps ts [] = some b ↔ SolvesAll b ps ts)
  | [], [], b, _ => by
    rw [bindAll, SolvesAll, fitsAll_nil, variableNamesAll, List.map_eq_nil_iff, Option.some.injEq, and_iff_left rfl]
    exact eq_comm
  | [], t :: ts, b, _ => by simp [bindAll, SolvesAll, fitsAll_nil]
  | p :: ps, [], b, _ => by simp [bindAll, SolvesAll, not_fitsAll_cons_nil]
  | p :: ps, t :: ts, b, hps => by
    have hparts := List.nodup_append.1 hps
    rw [bindAll_cons_eq_some_iff, solvesAll_cons hps]
    simp only [bind_eq_some_iff_solves hparts.1, bindAll_eq_some_iff_solvesAll hparts.2.1]

end

theorem unify_of_nodup (hp : p.variableNames.Nodup) (t : Term) : p.unify t = p.bind t [] := if_pos (isLinear_iff.2 hp)

theorem unify_eq_some_iff_solves : p.unify t = some b ↔ p.variableNames.Nodup ∧ Solves b p t := by
  by_cases hp : p.variableNames.Nodup
  · rw [unify_of_nodup hp, bind_eq_some_iff_solves hp, and_iff_right hp]
  · rw [unify, if_neg (mt isLinear_iff.1 hp)]
    simp [hp]

theorem nodup_of_check (h : p.check = .ok ()) : p.variableNames.Nodup := by
  rw [← isLinear_iff, isLinear]
  unfold check at h
  cases hrep : p.repeated? with
  | none => rfl
  | some n =>
    rw [hrep] at h
    cases h

end Pattern

/-! ### Rule tables -/

namespace RuleTable

variable {m : Type → Type} {α : Type} {name : String} {rules : List (Rule m α)} {table : RuleTable m α} {t : Term}

theorem rules_of_ofRules (h : ofRules name rules = .ok table) : table.name = name ∧ table.rules = rules := by
  unfold ofRules at h
  split at h
  · cases h
  · split at h
    · cases h
    · cases h
      exact ⟨rfl, rfl⟩

/-- The first result among computations that may decline, made one after the other. -/
def firstCommitted [Monad m] : List (m (Option α)) → m (Option α)
  | [] => return none
  | x :: xs => do (← x).elim (firstCommitted xs) fun result => return some result

/-- **Tables unify**: of rules in whose patterns no variable stands twice, those are tried whose patterns unify, with the
bindings of unification. -/
theorem applyRules_eq_firstCommitted [Monad m] (hrules : ∀ r ∈ rules, r.pattern.variableNames.Nodup) (t : Term) :
    applyRules t rules = firstCommitted (rules.filterMap fun r => (r.pattern.unify t).map r.handler) := by
  induction rules with
  | nil => rfl
  | cons r rs ih =>
    rw [List.forall_mem_cons] at hrules
    rw [applyRules, List.filterMap_cons, Pattern.unify_of_nodup hrules.1]
    cases r.pattern.bind t [] with
    | none => exact ih hrules.2
    | some b =>
      simp only [Option.map_some, firstCommitted, ← ih hrules.2]
      refine bind_congr fun o => ?_
      cases o <;> rfl

end RuleTable

/-- **Unification is sound and complete matching**: bindings are the result of unifying a pattern with a term exactly if
no variable stands twice in the pattern, they are for its variables from left to right, what is bound meets the
constraints, and the pattern with the bound terms for its variables is the term. In a table that is made of rules, each
rule is matched by unification, and the handlers of those that match are tried in order with the bindings. -/
theorem Pattern.unify_sound_complete {m : Type → Type} [Monad m] [MonadExceptOf Error m] {α : Type} (p : Pattern)
    (t : Term) (b : Bindings) (name : String) (rules : List (Rule m α)) :
    (p.unify t = some b ↔ p.variableNames.Nodup ∧ b.map Prod.fst = p.variableNames ∧
        (∀ v ∈ p.holes, ∀ s, b.term? v.1 = some s → v.2.all (· s) = true) ∧ p.instantiate b.term? = some t) ∧
      ∀ table, RuleTable.ofRules name rules = .ok table →
        (∀ r ∈ table.rules, r.pattern.bind t [] = r.pattern.unify t) ∧
          table.apply t = (do
            let found ← RuleTable.firstCommitted (rules.filterMap fun r => (r.pattern.unify t).map r.handler)
            found.elim (throw (.unmatched name t)) pure) := by
  refine ⟨unify_eq_some_iff_solves, fun table htable => ?_⟩
  obtain ⟨rfl, rfl⟩ := RuleTable.rules_of_ofRules htable
  have hnodup : ∀ r ∈ table.rules, r.pattern.variableNames.Nodup := fun r hr => nodup_of_check (table.valid r hr)
  refine ⟨fun r hr => (unify_of_nodup (hnodup r hr) t).symm, ?_⟩
  rw [RuleTable.apply, RuleTable.applyRules_eq_firstCommitted hnodup]
  refine bind_congr fun o => ?_
  cases o <;> rfl

/-- The pattern `APP I x` for variables, unified with such an application, and a table with it. -/
theorem Pattern.unify_sound_complete_identity :
    (Pattern.node "APP" [.literal (.const .i), .var "x" (some Term.isVar)]).unify (.app (.const .i) (.var "y")) =
        some [("x", .var "y")] ∧
      ∃ table, RuleTable.ofRules "identity"
          [({ pattern := .node "APP" [.literal (.const .i), .var "x" (some Term.isVar)],
              handler := fun b => .ok (b.term? "x") } : Rule (Except Error) Term)] = .ok table ∧
        table.apply (.app (.const .i) (.var "y")) = .ok (.var "y") := by
  have hspec := unify_sound_complete (.node "APP" [.literal (.const .i), .var "x" (some Term.isVar)])
    (.app (.const .i) (.var "y")) [("x", .var "y")] "identity"
    [({ pattern := .node "APP" [.literal (.const .i), .var "x" (some Term.isVar)],
        handler := fun b => .ok (b.term? "x") } : Rule (Except Error) Term)]
  refine ⟨hspec.1.2 ⟨by decide, rfl, ?_, rfl⟩, _, rfl, ?_⟩
  · intro v hv s hs
    obtain rfl := List.mem_singleton.1 hv
    cases hs
    rfl
  · rw [(hspec.2 _ rfl).2]
    rfl

end Combinatory
