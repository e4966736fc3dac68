import Combinatory.Proofs.Readability

/-!
# Runs of a name supply

A name supply answers requests one after the other, for names and to reserve names. Whatever the requests, no name is
given twice, and none that is avoided when it is given.

## The model

A `Request` asks for the next name, as a name, as a variable or as the next item of the sequence, or that a name is
avoided from now on. `NameSupply.history` is what happens to a supply: the supply before each request, with the `Answer`.
Positions are numbers without a bound, so the sequence has no end. A supply is never put back to its start.

Drawing is a bounded search. `NameSupply.Draws` is the loop without a bound: the name at the position is taken if it is
free, and passed if it is not. The bound is right if the loop always ends, and with the result of the search.

## What is proved

* `draws_iff` — the loop ends from every supply, and gives what the bounded search gives.
* `drawMany_eq_take` — names that are drawn one after the other are the first ones of the sequence that are not avoided.
* `not_used_of_mem_drawn` — what a supply has passed or avoids is never given again, whatever it is asked for.
* `fresh_names_never_repeat` — all of it for every supply and every list of requests.
-/

namespace Combinatory.NameSupply

variable {s s' : NameSupply} {n : String} {i j : Nat}

/-! ### One draw -/

/-- The next name is the first one that is not avoided. -/
theorem draw_eq_first (s : NameSupply) : ∃ j ≤ s.avoid.length, (∀ k < j, nameAt (s.next + k) ∈ s.avoid) ∧
    nameAt (s.next + j) ∉ s.avoid ∧ s.draw = (nameAt (s.next + j), { s with next := s.next + j + 1 }) := by
  obtain ⟨hle, hbound, hpassed, -⟩ := firstFree_spec s.avoid s.avoid.length s.next
  obtain ⟨j, hj⟩ := Nat.exists_eq_add_of_le hle
  refine ⟨j, by omega, fun k hk => hpassed _ (by omega) (by omega), ?_, ?_⟩
  · rw [← hj]
    exact s.draw_not_mem
  · rw [← hj]
    rfl

/-- Drawing as a loop: the name at the position is taken if it is free, and passed if it is not. -/
inductive Draws : NameSupply → String → NameSupply → Prop where
  | take {s : NameSupply} : nameAt s.next ∉ s.avoid → Draws s (nameAt s.next) { s with next := s.next + 1 }
  | pass {s s' : NameSupply} {n : String} : nameAt s.next ∈ s.avoid → Draws { s with next := s.next + 1 } n s' →
    Draws s n s'

theorem draws_of_passed (hpassed : ∀ k < j, nameAt (s.next + k) ∈ s.avoid) (hfree : nameAt (s.next + j) ∉ s.avoid) :
    s.Draws (nameAt (s.next + j)) { s with next := s.next + j + 1 } := by
  induction j generalizing s with
  | zero => exact .take hfree
  | succ j ih =>
    have hshift (k : Nat) : s.next + 1 + k = s.next + (k + 1) := by omega
    have hrest := ih (s := { s with next := s.next + 1 }) (fun k hk => hshift k ▸ hpassed (k + 1) (by omega))
      (hshift j ▸ hfree)
    refine .pass (hpassed 0 (by omega)) ?_
    simpa only [hshift] using hrest

theorem Draws.unique {n' : String} {s'' : NameSupply} (h : s.Draws n s') (h' : s.Draws n' s'') : n = n' ∧ s' = s'' := by
  induction h with
  | take hfree =>
    cases h' with
    | take _ => exact ⟨rfl, rfl⟩
    | pass hmem _ => exact absurd hmem hfree
  | pass hmem _ ih =>
    cases h' with
    | take hfree => exact absurd hmem hfree
    | pass _ h' => exact ih h'

/-- **The loop ends**, and with the result of the bounded search. -/
theorem draws_iff : s.Draws n s' ↔ s.draw = (n, s') := by
  obtain ⟨j, -, hpassed, hfree, hdraw⟩ := s.draw_eq_first
  have hdraws := draws_of_passed hpassed hfree
  rw [hdraw, Prod.mk.injEq]
  constructor
  · exact hdraws.unique
  · rintro ⟨rfl, rfl⟩
    exact hdraws

/-! ### Draws one after the other -/

/-- The names at `m` positions of the sequence, from the position `i` on. -/
def candidates (i m : Nat) : List String := (List.range' i m).map nameAt

theorem candidates_add (i m k : Nat) : candidates i (m + k) = candidates i m ++ candidates (i + m) k := by
  rw [candidates, candidates, candidates, ← List.map_append, List.range'_append_1]

theorem candidates_succ (i m : Nat) : candidates i (m + 1) = nameAt i :: candidates (i + 1) m := rfl

theorem nodup_candidates (i m : Nat) : (candidates i m).Nodup :=
  List.Nodup.map (fun _ _ => nameAt_inj) List.nodup_range'

theorem exists_of_mem_candidates {m : Nat} (h : n ∈ candidates i m) : ∃ k < m, n = nameAt (i + k) := by
  obtain ⟨a, ha, rfl⟩ := List.mem_map.1 h
  obtain ⟨k, hk, rfl⟩ := List.mem_range'.1 ha
  exact ⟨k, hk, by rw [Nat.one_mul]⟩

/-- The names that are drawn one after the other are those of the sequence that are not avoided. -/
theorem drawMany_eq_filter (s : NameSupply) (n : Nat) :
    ∃ m, (s.drawMany n).1 = (candidates s.next m).filter (· ∉ s.avoid) := by
  induction n generalizing s with
  | zero => exact ⟨0, rfl⟩
  | succ n ih =>
    obtain ⟨j, -, hpassed, hfree, hdraw⟩ := s.draw_eq_first
    obtain ⟨m, hm⟩ := ih s.draw.2
    have hskip : (candidates s.next j).filter (· ∉ s.avoid) = [] := by
      refine List.filter_eq_nil_iff.2 fun a ha => ?_
      obtain ⟨k, hk, rfl⟩ := exists_of_mem_candidates ha
      simpa using hpassed k hk
    refine ⟨j + (m + 1), ?_⟩
    rw [candidates_add, candidates_succ, List.filter_append, hskip, List.nil_append,
      List.filter_cons_of_pos (by simpa using hfree)]
    simp only [drawMany, hm]
    rw [hdraw]

/-- Of the names at `m` positions, no more are avoided than the list of names to avoid is long. -/
theorem le_length_filter_candidates (s : NameSupply) (i m : Nat) :
    m ≤ ((candidates i m).filter (· ∉ s.avoid)).length + s.avoid.length := by
  have hsplit := List.length_eq_length_filter_add (l := candidates i m) (decide <| · ∉ s.avoid)
  have hmem : ((candidates i m).filter fun a => !decide (a ∉ s.avoid)).length ≤ s.avoid.length := by
    refine ((nodup_candidates i m).filter _).length_le_of_subset fun a ha => ?_
    simpa using (List.mem_filter.1 ha).2
  have hlength : (candidates i m).length = m := by simp [candidates]
  omega

/-- **First names**: the next `n` names are the first `n` names of the sequence that are not avoided. A stretch of the
sequence that is longer by the number of names to avoid has them all. -/
theorem drawMany_eq_take (s : NameSupply) {n m : Nat} (h : n + s.avoid.length ≤ m) :
    (s.drawMany n).1 = ((candidates s.next m).filter (· ∉ s.avoid)).take n := by
  obtain ⟨k, hk⟩ := s.drawMany_eq_filter n
  have hlength : ((candidates s.next k).filter (· ∉ s.avoid)).length = n := by rw [← hk, length_drawMany]
  have hbound := s.le_length_filter_candidates s.next k
  -- the stretch that the draws have passed is an initial part of the given one
  obtain ⟨r, rfl⟩ := Nat.exists_eq_add_of_le (show k ≤ m by omega)
  rw [candidates_add, List.filter_append, List.take_append_of_le_length (by omega), List.take_of_length_le (by omega), hk]

/-! ### Requests -/

/-- What a supply is asked for. -/
inductive Request where
  /-- The next name. -/
  | name
  /-- The variable with the next name. -/
  | term
  /-- The next item of the sequence of names. -/
  | item
  /-- That a name is avoided. -/
  | reserve (n : String)

/-- What a supply answers. -/
inductive Answer where
  /-- A name. -/
  | name (n : String)
  /-- A term. -/
  | term (t : Term)
  /-- The next item, if there is one. -/
  | item (n : Option String)
  /-- It is done. -/
  | done

/-- Whether a name is asked for. -/
def Request.draws : Request → Bool
  | .name | .term | .item => true
  | .reserve _ => false

/-- The name that is given, if there is one. -/
def Answer.drawn : Answer → Option String
  | .name n => some n
  | .term t => t.varName?
  | .item n => n
  | .done => none

/-- Answers a request. -/
def serve (s : NameSupply) : Request → Answer × NameSupply
  | .name => (.name s.draw.1, s.draw.2)
  | .term => (.term (.var s.draw.1), s.draw.2)
  | .item => (.item (some s.draw.1), s.draw.2)
  | .reserve n => (.done, s.reserve n)

/-- The supplies before each of the requests, with the answers. -/
def history (s : NameSupply) : List Request → List (NameSupply × Answer)
  | [] => []
  | q :: qs => (s, (s.serve q).1) :: (s.serve q).2.history qs

/-- The names that are given. -/
def drawn (s : NameSupply) (qs : List Request) : List String := (s.history qs).filterMap (·.2.drawn)

variable {q : Request} {qs : List Request}

theorem drawn_cons (hq : q.draws = true) : s.drawn (q :: qs) = s.draw.1 :: s.draw.2.drawn qs := by
  cases q with
  | name | term | item => rfl
  | reserve _ => cases hq

theorem drawn_reserve (m : String) : s.drawn (.reserve m :: qs) = (s.reserve m).drawn qs := rfl

/-- All that a supply gives are its next names. -/
theorem eq_draw_of_mem_history {h : NameSupply × Answer} (hh : h ∈ s.history qs) (hn : h.2.drawn = some n) :
    n = h.1.draw.1 := by
  induction qs generalizing s with
  | nil => cases hh
  | cons q qs ih =>
    rcases List.mem_cons.1 hh with rfl | hh
    · cases q with
      | name | term | item =>
        cases hn
        rfl
      | reserve _ => cases hn
    · exact ih hh

theorem length_drawn (s : NameSupply) (qs : List Request) : (s.drawn qs).length = qs.countP Request.draws := by
  induction qs generalizing s with
  | nil => rfl
  | cons q qs ih =>
    by_cases hq : q.draws = true
    · rw [drawn_cons hq, List.length_cons, ih, List.countP_cons_of_pos hq]
    · cases q with
      | name | term | item => exact absurd rfl hq
      | reserve m => rw [drawn_reserve, ih, List.countP_cons_of_neg hq]

theorem drawn_eq_drawMany (hqs : ∀ q ∈ qs, q.draws = true) : s.drawn qs = (s.drawMany qs.length).1 := by
  induction qs generalizing s with
  | nil => rfl
  | cons q qs ih =>
    rw [List.forall_mem_cons] at hqs
    rw [drawn_cons hqs.1, ih hqs.2]
    rfl

/-! ### No name is given twice -/

theorem Used.reserve (h : s.Used n) (m : String) : (s.reserve m).Used n := h.imp_left List.mem_insert_of_mem

/-- What a supply has passed or avoids is never given again, whatever it is asked for. -/
theorem not_used_of_mem_drawn (h : n ∈ s.drawn qs) : ¬s.Used n := by
  induction qs generalizing s with
  | nil => cases h
  | cons q qs ih =>
    cases q with
    | name | term | item =>
      rw [drawn_cons rfl] at h
      rcases List.mem_cons.1 h with rfl | h
      · exact s.not_used_draw
      · exact fun hu => ih h (hu.mono s.precedes_draw)
    | reserve m => exact fun hu => ih h (hu.reserve m)

theorem nodup_drawn (s : NameSupply) (qs : List Request) : (s.drawn qs).Nodup := by
  induction qs generalizing s with
  | nil => exact List.nodup_nil
  | cons q qs ih =>
    cases q with
    | name | term | item =>
      rw [drawn_cons rfl]
      exact List.nodup_cons.2 ⟨fun h => not_used_of_mem_drawn h s.used_draw_self, ih s.draw.2⟩
    | reserve m => exact ih (s.reserve m)

/-- **Fresh names never repeat and never collide**: the names of the sequence differ, and the loop that looks for the next
one always ends. Of any supply and any requests, each request for a name is answered, the names that are given differ,
and each is a local name that is not avoided at that moment. If only names are asked for, they are the first names from
the position of the supply on that are not avoided. -/
theorem fresh_names_never_repeat (s : NameSupply) (qs : List Request) :
    Function.Injective nameAt ∧ (∀ (r : NameSupply) (n : String) (r' : NameSupply), r.Draws n r' ↔ r.draw = (n, r')) ∧
      (s.drawn qs).length = qs.countP Request.draws ∧ (s.drawn qs).Nodup ∧
      (∀ h ∈ s.history qs, ∀ n, h.2.drawn = some n → n ∉ h.1.avoid ∧ isLocalName n.toList = true) ∧
      ((∀ q ∈ qs, q.draws = true) → ∀ m, qs.length + s.avoid.length ≤ m →
        s.drawn qs = ((candidates s.next m).filter (· ∉ s.avoid)).take qs.length) := by
  refine ⟨fun _ _ => nameAt_inj, fun _ _ _ => draws_iff, s.length_drawn qs, s.nodup_drawn qs, ?_, ?_⟩
  · intro h hh n hn
    obtain rfl := eq_draw_of_mem_history hh hn
    exact ⟨h.1.draw_not_mem, isLocalName_nameAt _⟩
  · intro hqs m hm
    rw [drawn_eq_drawMany hqs, s.drawMany_eq_take hm]

/-- The supply that avoids `a` and `c` gives `b`, `d` and `e`. -/
theorem fresh_names_never_repeat_avoiding :
    (avoiding ["a", "c"]).drawn [.name, .item, .term] = ["b", "d", "e"] := by
  rw [(fresh_names_never_repeat (avoiding ["a", "c"]) [.name, .item, .term]).2.2.2.2.2 (by decide) 5 (by decide)]
  decide

end Combinatory.NameSupply
