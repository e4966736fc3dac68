import Combinatory.Proofs.Tables.Rules

/-!
# Evaluation of rule tables

How the tables are applied: all of them can be made, a call is answered by the first rule that matches and commits, and
what a handler reads is what the pattern has bound.

## The proof

A table is evaluated by rewriting. There is one equation for each way to make a pattern, which says what it binds, and
one for each thing that a handler reads. So the rules are tried one after the other until one of them matches, without a
look at the others; a rule for a spine with another head is passed over at once.

## What is proved

* `exists_ofRules` — every table can be made.
* `exec_apply` — a table gives what its first rule gives that matches and commits, and otherwise the error that names
  the table.
-/

namespace Combinatory

namespace Tables

open Term (stack stackAll)

variable {σ : Type} {α : Type}

/-! ### Tables can be made -/

theorem checkAll_rules (τ : Table) : RuleTable.checkAll (rules τ) = .ok () := by
  cases τ with
  | groupAt l => cases l <;> rfl
  | _ => rfl

theorem rules_ne_nil (τ : Table) : rules τ ≠ [] := by
  cases τ with
  | groupAt l => cases l <;> exact List.cons_ne_nil _ _
  | _ => exact List.cons_ne_nil _ _

/-- No variable stands twice in a pattern of a table, and every head in it has as many children as it should. -/
theorem exists_ofRules (τ : Table) : ∃ table, RuleTable.ofRules τ.name (rules τ) = .ok table := by
  have hcheck := checkAll_rules τ
  unfold RuleTable.ofRules
  rw [dif_neg (rules_ne_nil τ)]
  split
  · next h =>
    rw [h] at hcheck
    cases hcheck
  · exact ⟨_, rfl⟩

/-! ### Trying rules -/

/-- What the rules of a table do to a term: what the first one gives that matches and commits, and otherwise the error
that names the table. -/
noncomputable def evaluate (name : String) (rules : List (Rule (Handler σ) α)) (t : Term) : StateT σ Run α :=
  (RuleTable.applyRules t rules).exec answer >>= fun result => result.elim (throw (.unmatched name t)) pure

section Evaluate

variable (name : String) (rs : List (Rule (Handler σ) α)) (t : Term)

@[simp] theorem evaluate_nil : evaluate name ([] : List (Rule (Handler σ) α)) t = throw (.unmatched name t) := by
  simp [evaluate, RuleTable.applyRules]

@[simp] theorem evaluate_cons (p : Pattern) (f : Bindings → Handler σ (Option α)) : evaluate name (⟨p, f⟩ :: rs) t =
    (p.bind t []).elim (evaluate name rs t) fun b =>
      (f b).exec answer >>= fun result => result.elim (evaluate name rs t) pure := by
  unfold evaluate
  rw [RuleTable.applyRules]
  cases p.bind t [] with
  | none => rfl
  | some b =>
    simp only [Handling.exec_bind, bind_assoc, Option.elim_some]
    refine bind_congr fun result => ?_
    cases result with
    | none => rfl
    | some a => simp

/-- Once a rule that commits has matched, the rules after it do not count. -/
@[simp] theorem evaluate_commit (p : Pattern) (f : Bindings → Handler σ α) : evaluate name (commit p f :: rs) t =
    (p.bind t []).elim (evaluate name rs t) fun b => (f b).exec answer := by
  rw [commit, evaluate_cons]
  simp

end Evaluate

/-- Applying a table is a call that is answered by its rules. -/
theorem exec_apply (τ : Table) (t : Term) : (apply τ t).exec answer = evaluate τ.name (rules τ) t := by
  obtain ⟨table, h⟩ := exists_ofRules τ
  obtain ⟨hname, hrules⟩ := RuleTable.rules_of_ofRules h
  have hmade : (apply τ t).exec answer = (table.apply t).exec answer := by
    funext context
    have hcall : answer (.table τ t context) = (table.apply t context).run := by
      simp only [answer, applyMade, h]
    refine (Script.run_call answer (.table τ t context) _).trans ?_
    rw [hcall]
    exact (bind_congr fun r => Script.run_pure answer r).trans (bind_pure _)
  rw [hmade, RuleTable.apply, Handling.exec_bind, hname, hrules]
  refine bind_congr fun result => ?_
  cases result with
  | none => exact Handling.exec_throw answer _
  | some a => exact Handling.exec_pure answer a

theorem exec_apply_inContext (τ : Table) (t : Term) (context : τ.Context) :
    Attempt.exec answer ((apply τ t).inContext context) = (evaluate τ.name (rules τ) t).run' context := by
  rw [Handling.exec_inContext, exec_apply]

/-- A substitution is a call that is answered by looking at the head. -/
theorem exec_substitute_eq (n : String) (d t : Term) :
    Attempt.exec answer (substitute n d t) = ((replace n d t).exec answer).run' () := by
  rw [← Handling.exec_inContext]
  refine (Script.run_call answer (.substitute n d t) _).trans ?_
  exact (bind_congr fun r => Script.run_pure answer r).trans (bind_pure _)

/-! ### Reading bindings -/

theorem term?_cons (k : String) (t : Term) (b : Bindings) (n : String) :
    Bindings.term? ((k, t) :: b) n = if n = k then some t else b.term? n := by
  by_cases h : n = k
  · simp [Bindings.term?, h]
  · have hk : (n == k) = false := beq_eq_false_iff_ne.2 h
    simp [Bindings.term?, List.lookup_cons, h, hk]

@[simp] theorem read_cons (k : String) (t : Term) (b : Bindings) (n : String) :
    (read ((k, t) :: b) n : Handler σ Term) = if n = k then pure t else read b n := by
  unfold read Bindings.term
  rw [term?_cons]
  by_cases h : n = k
  · simp [h]
  · simp [h]

@[simp] theorem readName_cons (k m : String) (b : Bindings) (n : String) :
    (readName ((k, .name m) :: b) n : Handler σ String) = if n = k then pure m else readName b n := by
  unfold readName Bindings.nameOf
  rw [term?_cons]
  by_cases h : n = k
  · simp [h, Term.asName?]
  · simp [h]

/-- A name that is bound to another variable is not in the way of what is read. -/
@[simp] theorem readName_cons_of_ne {k n : String} (h : n ≠ k) (t : Term) (b : Bindings) :
    (readName ((k, t) :: b) n : Handler σ String) = readName b n := by
  unfold readName Bindings.nameOf
  rw [term?_cons, if_neg h]

@[simp] theorem child_zero (t : Term) (ts : List Term) : (child (t :: ts) 0 : Handler σ Term) = pure t := rfl

@[simp] theorem child_one (t u : Term) (ts : List Term) : (child (t :: u :: ts) 1 : Handler σ Term) = pure u := rfl

@[simp] theorem rebuild_var (n : String) : (rebuild .var [.name n] : Handler σ Term) = pure (.var n) := by
  simp [rebuild, Term.ofParts?, Head.ofSpelling?_spelling]

@[simp] theorem rebuild_unary (u : Unary) (x : Term) :
    (rebuild (.unary u) [x] : Handler σ Term) = pure (.unary u x) := by
  simp [rebuild, Term.ofParts?, Head.ofSpelling?_spelling]

@[simp] theorem rebuild_binary (o : Binary) (x y : Term) :
    (rebuild (.binary o) [x, y] : Handler σ Term) = pure (.binary o x y) := by
  simp [rebuild, Term.ofParts?, Head.ofSpelling?_spelling]

@[simp] theorem rebuild_lambda (p e : Term) : (rebuild .lambda [p, e] : Handler σ Term) = pure (.lambda p e) := by
  simp [rebuild, Term.ofParts?, Head.ofSpelling?_spelling]

@[simp] theorem rebuild_letrec (p d e : Term) :
    (rebuild .letrec [p, d, e] : Handler σ Term) = pure (.letrec p d e) := by
  simp [rebuild, Term.ofParts?, Head.ofSpelling?_spelling]

section MapArgs

variable (f : Term → Handler σ Term)

@[simp] theorem mapArgs_name (n : String) : mapArgs f (.name n) = pure (.name n) := rfl

@[simp] theorem mapArgs_const (o : Const) : mapArgs f (.const o) = pure (.const o) := rfl

@[simp] theorem mapArgs_var (n : String) : mapArgs f (.var n) = f (.name n) >>= fun x => rebuild .var [x] := by
  simp [mapArgs, Term.layer]

@[simp] theorem mapArgs_unary (u : Unary) (x : Term) : mapArgs f (.unary u x) = do return .unary u (← f x) := by
  simp [mapArgs, Term.layer]

@[simp] theorem mapArgs_binary (o : Binary) (x y : Term) :
    mapArgs f (.binary o x y) = do return .binary o (← f x) (← f y) := by
  simp [mapArgs, Term.layer]

@[simp] theorem mapArgs_lambda (p e : Term) : mapArgs f (.lambda p e) = do return .lambda (← f p) (← f e) := by
  simp [mapArgs, Term.layer]

@[simp] theorem mapArgs_letrec (p d e : Term) :
    mapArgs f (.letrec p d e) = do return .letrec (← f p) (← f d) (← f e) := by
  simp [mapArgs, Term.layer]

end MapArgs

/-! ### Matching -/

@[simp] theorem head?_name (n : String) : (Term.name n).head? = none := by simp [Term.head?, Term.layer]

@[simp] theorem head?_const (o : Const) : (Term.const o).head? = some (.const o) := by simp [Term.head?, Term.layer]

@[simp] theorem head?_var (n : String) : (Term.var n).head? = some .var := by simp [Term.head?, Term.layer]

@[simp] theorem head?_unary (u : Unary) (x : Term) : (Term.unary u x).head? = some (.unary u) := by
  simp [Term.head?, Term.layer]

@[simp] theorem head?_binary (o : Binary) (x y : Term) : (Term.binary o x y).head? = some (.binary o) := by
  simp [Term.head?, Term.layer]

@[simp] theorem head?_lambda (p e : Term) : (Term.lambda p e).head? = some .lambda := by simp [Term.head?, Term.layer]

@[simp] theorem head?_letrec (p d e : Term) : (Term.letrec p d e).head? = some .letrec := by
  simp [Term.head?, Term.layer]

@[simp] theorem bind_any (n : String) (t : Term) (b : Bindings) : (any n).bind t b = some (b ++ [(n, t)]) := rfl

@[simp] theorem bind_anyIf (n : String) (test : Term → Bool) (t : Term) (b : Bindings) :
    (anyIf n test).bind t b = if test t then some (b ++ [(n, t)]) else none := rfl

@[simp] theorem bind_constant (o : Const) (t : Term) (b : Bindings) :
    (constant o).bind t b = if t = .const o then some b else none := by
  simp only [constant, Pattern.bind, eq_comm]

@[simp] theorem bindAll_nil (b : Bindings) : Pattern.bindAll [] [] b = some b := by simp [Pattern.bindAll]

@[simp] theorem bindAll_cons (p : Pattern) (ps : List Pattern) (t : Term) (ts : List Term) (b : Bindings) :
    Pattern.bindAll (p :: ps) (t :: ts) b = (p.bind t b).bind fun b => Pattern.bindAll ps ts b := by
  simp [Pattern.bindAll]

section Node

variable (h : Head) (ps : List Pattern) (b : Bindings)

theorem bind_node_of_parts {t : Term} {k : Head} {args : List Term}
    (ht : Pattern.nodeParts? t = some (k.spelling, args)) :
    (node h ps).bind t b = if k = h then Pattern.bindAll ps args b else none := by
  rw [node, Pattern.bind, ht]
  simp only [Head.spelling_injective.eq_iff]

@[simp] theorem bind_node_name (n : String) : (node h ps).bind (.name n) b = none := by
  simp [node, Pattern.bind, Pattern.nodeParts?, Term.layer]

@[simp] theorem bind_node_const (o : Const) : (node h ps).bind (.const o) b = none := by
  simp [node, Pattern.bind, Pattern.nodeParts?, Term.layer]

@[simp] theorem bind_node_var (n : String) :
    (node h ps).bind (.var n) b = if .var = h then Pattern.bindAll ps [.name n] b else none :=
  bind_node_of_parts h ps b rfl

@[simp] theorem bind_node_unary (u : Unary) (x : Term) :
    (node h ps).bind (.unary u x) b = if .unary u = h then Pattern.bindAll ps [x] b else none :=
  bind_node_of_parts h ps b rfl

@[simp] theorem bind_node_binary (o : Binary) (x y : Term) :
    (node h ps).bind (.binary o x y) b = if .binary o = h then Pattern.bindAll ps [x, y] b else none :=
  bind_node_of_parts h ps b rfl

@[simp] theorem bind_node_lambda (p e : Term) :
    (node h ps).bind (.lambda p e) b = if .lambda = h then Pattern.bindAll ps [p, e] b else none :=
  bind_node_of_parts h ps b rfl

@[simp] theorem bind_node_letrec (p d e : Term) :
    (node h ps).bind (.letrec p d e) b = if .letrec = h then Pattern.bindAll ps [p, d, e] b else none :=
  bind_node_of_parts h ps b rfl

variable {h ps b}

/-- What has another head does not match. -/
theorem bind_node_of_head?_ne {t : Term} (ht : t.head? ≠ some h) : (node h ps).bind t b = none := by
  cases t <;> simp_all

theorem bind_node_binary_of_ne {o : Binary} {t : Term} (ht : ∀ x y, t ≠ .binary o x y) :
    (node (.binary o) ps).bind t b = none := by
  apply bind_node_of_head?_ne
  cases t <;> simp_all

theorem bind_node_var_of_isVar_eq_false {t : Term} (ht : t.isVar = false) : (node .var ps).bind t b = none := by
  apply bind_node_of_head?_ne
  cases t <;> simp_all [Term.isVar, Term.varName?]

end Node

@[simp] theorem stack_nil (tail : Pattern) : Pattern.stack [] tail = tail := rfl

@[simp] theorem stack_cons (p : Pattern) (ps : List Pattern) (tail : Pattern) :
    Pattern.stack (p :: ps) tail = node (.binary .stack) [p, Pattern.stack ps tail] := rfl

end Tables
end Combinatory
