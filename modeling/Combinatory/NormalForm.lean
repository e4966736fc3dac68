import Combinatory.Substitution

/-!
# Affine normal forms

Normalization reduces the head of a term as long as a step does not copy work: η-reduction, β-reduction of an
argument that is used at most once or is a variable, and the lattice laws of `TOP`, `BOT` and `JOIN`. When the
head is stuck, the arguments are normalized. Nothing below a head other than application is touched.

## The model

A term is taken apart into a head and the arguments that it is applied to. `Term.headStep?` is one step that
looks at the head and the first argument only. A `LAMBDA` that uses its argument more than once needs the
normal form of the argument, which may turn out to be a variable. `Term.spineWeight` decreases with every step,
by the size law of substitution, so normalization ends on every term.
-/

namespace Combinatory.Term

/-- One of the lattice laws: `TOP` and `BOT` absorb an argument, `TOP` absorbs the other side of a join and
`BOT` is absorbed by it. -/
def latticeStep? : Term → List Term → Option (Term × List Term)
  | .const .top, _ :: _ => some (.const .top, [])
  | .const .bot, _ :: _ => some (.const .bot, [])
  | .join (.const .top) _, _ => some (.const .top, [])
  | .join _ (.const .top), _ => some (.const .top, [])
  | .join (.const .bot) x, as => some (x, as)
  | .join x (.const .bot), as => some (x, as)
  | _, _ => none

/-- The η-law: `LAMBDA n. x n` is `x` if `n` is not free in `x`. -/
def etaStep? : Term → Option Term
  | .lambda (.var n) (.app x (.var m)) => if m = n ∧ x.count n = 0 then some x else none
  | _ => none

/-- The β-law for an argument that is a variable, or that is used at most once. -/
def betaStep? : Term → List Term → Option (Term × List Term)
  | .lambda (.var n) e, .var m :: as => some (substitute n (.var m) e, as)
  | .lambda (.var n) e, y :: as => if e.count n ≤ 1 then some (substitute n y e, as) else none
  | _, _ => none

/-- One step at the head of a spine. -/
def headStep? (h : Term) (as : List Term) : Option (Term × List Term) :=
  latticeStep? h as <|> (etaStep? h).map (·, as) <|> betaStep? h as

/-- What the arguments of a spine weigh. -/
@[simp] def argumentsWeight : List Term → Nat
  | [] => 0
  | a :: as => 2 * a.size + 1 + argumentsWeight as

/-- A measure of a spine that every step decreases. An application weighs more than its two parts do as a head
and an argument. -/
def spineWeight (h : Term) (as : List Term) : Nat := 2 * h.size + argumentsWeight as

@[simp] theorem spineWeight_nil (h : Term) : spineWeight h [] = 2 * h.size := by simp [spineWeight]

@[simp] theorem spineWeight_cons (h a : Term) (as : List Term) :
    spineWeight h (a :: as) = spineWeight h as + 2 * a.size + 1 := by
  simp [spineWeight]; omega

theorem spineWeight_mono {h k : Term} (hk : h.size < k.size) (as : List Term) :
    spineWeight h as < spineWeight k as := by
  simp [spineWeight]; omega

theorem lt_spineWeight_of_mem {h a : Term} {as : List Term} (ha : a ∈ as) :
    2 * a.size < spineWeight h as := by
  induction as with
  | nil => cases ha
  | cons b bs ih =>
    rw [spineWeight_cons]
    rcases List.mem_cons.1 ha with rfl | ha
    · omega
    · have := ih ha; omega

theorem latticeStep?_weight {h h' : Term} {as as' : List Term} (hs : latticeStep? h as = some (h', as')) :
    spineWeight h' as' < spineWeight h as := by
  unfold latticeStep? at hs
  split at hs <;> cases hs
  · simp only [spineWeight, argumentsWeight, size]; omega
  · simp only [spineWeight, argumentsWeight, size]; omega
  · simp only [spineWeight, argumentsWeight, size]; omega
  · simp only [spineWeight, argumentsWeight, size]; omega
  · exact spineWeight_mono (by simp only [size]; omega) _
  · exact spineWeight_mono (by simp only [size]; omega) _

theorem etaStep?_size {h h' : Term} (hs : etaStep? h = some h') : h'.size < h.size := by
  unfold etaStep? at hs
  split at hs
  · split at hs <;> cases hs
    simp [size]; omega
  · cases hs

/-- An argument that is a variable is substituted without growth. -/
theorem size_substitute_var (n m : String) (e : Term) : (substitute n (.var m) e).size = e.size := by
  have := size_substitute n (.var m) e
  simp [size] at this
  exact this

theorem betaStep?_weight {h h' : Term} {as as' : List Term} (hs : betaStep? h as = some (h', as')) :
    spineWeight h' as' < spineWeight h as := by
  unfold betaStep? at hs
  split at hs
  · next n e m bs =>
    cases hs
    simp [spineWeight, size_substitute_var, size]; omega
  · next n e y bs _ =>
    split at hs <;> cases hs
    next hc =>
    have hsize := size_substitute n y e
    have : e.count n = 0 ∨ e.count n = 1 := by omega
    rcases this with h0 | h1
    · simp [h0] at hsize
      simp [spineWeight, hsize, size]; omega
    · simp [h1] at hsize
      simp [spineWeight, size]; omega
  · cases hs

theorem headStep?_weight {h h' : Term} {as as' : List Term} (hs : headStep? h as = some (h', as')) :
    spineWeight h' as' < spineWeight h as := by
  unfold headStep? at hs
  cases hl : latticeStep? h as with
  | some r => rw [hl] at hs; cases hs; exact latticeStep?_weight hl
  | none =>
    cases he : etaStep? h with
    | some x => simp [hl, he] at hs; obtain ⟨rfl, rfl⟩ := hs; exact spineWeight_mono (etaStep?_size he) _
    | none => simp [hl, he] at hs; exact betaStep?_weight hs

/-- The normal form of `h` applied to `as`. -/
def normalizeSpine (h : Term) (as : List Term) : Term :=
  match h with
  | .app x y => normalizeSpine x (y :: as)
  | h =>
    match _hs : headStep? h as with
    | some (h', as') => normalizeSpine h' as'
    | none =>
      match h, as with
      | .lambda (.var n) e, y :: bs =>
        match normalizeSpine y [] with
        | .var m => normalizeSpine (substitute n (.var m) e) bs
        | y' => appAll (.lambda (.var n) e) (y' :: bs.map fun b => normalizeSpine b [])
      | h, as => appAll h (as.map fun a => normalizeSpine a [])
  termination_by spineWeight h as
  decreasing_by
    · simp [spineWeight, size]; omega
    · exact headStep?_weight _hs
    · simp [spineWeight, size]; omega
    · simp [spineWeight, size_substitute_var, size]; omega
    · next hb => have := lt_spineWeight_of_mem (h := .lambda (.var n) e) hb; simp at *; omega
    · next ha => simpa using lt_spineWeight_of_mem ha

/-- The affine normal form of a term. -/
def normalize (t : Term) : Term := normalizeSpine t []

end Combinatory.Term
