import Combinatory.Proofs.CombinatorElimination

/-!
# Hygiene of decompilation

The binders of decompiled code never clash: each of them has a name of its own, which the code does not have.

## The proof

Decompilation puts new variables into code that is decompiled again under further binders. The rules `Decompiles c ns t`
keep the account of the new names: `ns` are the names of the binders of `t`, in their order, as long as the code has no
binders (`Decompiles.boundNames_eq`). No rule copies what has binders in its decompiled form, so none of the names is
there twice; and the supply has drawn each of them once (`NameSupply.Supplies`).

## What is proved

* `hygienic_decompileWith`: the bound names of decompiled code are the names that have been drawn. They differ from each
  other and from the names of the code, and the free variables are names of the code.
-/

namespace Combinatory.Term

open Vocabulary

variable {c t : Term} {ns : List String}

/-- **The binders of decompiled code** have the new names, in their order. -/
theorem Decompiles.boundNames_eq (h : Decompiles c ns t) (hc : c.Over binderFree) : t.boundNames = ns := by
  induction h with
  | var _ | hole | absorb _ _ => rfl
  | unary _ _ ih => exact ih hc.2
  | binary _ _ _ ihx ihy => rw [boundNames, ihx hc.of_binary.1, ihy hc.of_binary.2]
  | lambda => exact absurd rfl hc.1.1
  | letrec => exact absurd rfl hc.1.2
  | contract as h _ ih =>
    rw [over_appAll] at hc
    exact ih (over_appAll.2 ⟨h.over closed_binderFree hc.1, hc.2⟩)
  | @abstract c t q y _ hq _ _ ih =>
    rw [boundNames, (hq.pattern y).payloads_eq, ih ⟨hc, hq.over closed_binderFree trivial⟩, List.singleton_append]
  | @share c a t u q d v _ _ hsh _ _ _ iha ihd =>
    obtain ⟨ha, hd⟩ := hsh.over closed_binderFree hc
    rw [boundNames, (hsh.pattern v).payloads_eq, iha ha, ihd (hd v trivial), List.append_assoc, List.singleton_append]
  | fixpoint _ _ _ _ ih => simp [Term.fixpoint, boundNames, payloads, ih hc.2]

/-- **Decompilation is hygienic**: with any supply that avoids the names of the code, the binders of the decompiled
term have the names that were drawn, each once. None of them is a name of the code, and the free variables all are. -/
theorem hygienic_decompileWith {s : NameSupply} (hw : c.WellFormed) (hb : c.BinderFree)
    (hs : ∀ n ∈ c.names, n ∈ s.avoid) (h : (c.decompileWith.runWith s).1 = .ok t) :
    s.Supplies t.boundNames (c.decompileWith.runWith s).2 ∧ t.boundNames.Nodup ∧
      (∀ n ∈ t.boundNames, n ∉ c.names) ∧ ∀ n ∈ t.freeNames, n ∈ c.names := by
  obtain ⟨ns, ht, hsupply⟩ := decompiles_of_decompileWith hs h
  obtain rfl := ht.boundNames_eq (hb.over hw)
  refine ⟨hsupply, hsupply.nodup, ?_, ?_⟩
  · intro n hn hname
    exact hsupply.not_used hn (.inl (hs n hname))
  · intro n hn
    have hcode : c.Over (ofNames (· ∈ c.payloads)) :=
      over_of_heads (fun _ _ => trivial) (fun _ => id) (.inl trivial)
    exact mem_names.2 (ht.name_of_mem hcode n (mem_freeNames.1 hn))

/-- `W (Y a) (QLESS c)` with a supply that has been used: the shared operand is a comparison, which takes two names, and
the fixed point takes two more. -/
theorem hygienic_decompileWith_shared :
    ∃ t, ((appAll (.const .w) [app (.const .y) (.var "a"), app (.const .qless) (.var "c")]).decompileWith.runWith
          ⟨1, ["a", "c"]⟩).1 = .ok t ∧
      t.boundNames = ["b", "d", "e", "f", "g"] ∧ t.boundNames.Nodup ∧ (∀ n ∈ t.boundNames, n ≠ "a" ∧ n ≠ "c") ∧
      ∀ n ∈ t.freeNames, n = "a" ∨ n = "c" := by
  have h : ((appAll (.const .w) [app (.const .y) (.var "a"), app (.const .qless) (.var "c")]).decompileWith.runWith
      ⟨1, ["a", "c"]⟩).1 = .ok (.letrec (.var "b")
        (.letrec (.quote (.var "d")) (.var "c") (.lambda (.quote (.var "e")) (less (.var "d") (.var "e"))))
        (appAll (fixpoint (.var "a") "f" "g") [.var "b", .var "b"])) := by decide +kernel
  obtain ⟨-, hnodup, hbound, hfree⟩ :=
    hygienic_decompileWith (by simp [WellFormed]) (by simp [BinderFree]) (by decide) h
  refine ⟨_, h, rfl, hnodup, ?_, ?_⟩
  · simpa [payloads, not_or] using hbound
  · simpa [payloads] using hfree

end Combinatory.Term
