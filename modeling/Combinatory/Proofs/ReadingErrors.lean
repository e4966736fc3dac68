import Combinatory.Proofs.Parsing
import Mathlib.Order.Bounds.Basic

/-!
# Errors of reading

A text of tokens that is not accepted ends too early, or has a first word with which no accepted text goes on. The
error says which of the two it is, with the least number of words that are missing, or with the word and the byte at
which it starts.

## The model

`Demand` is what a reader still has to read. `Demand.step` reads a word and `Demand.run` one word after the other.
There is no look-ahead: what is demanded is all that has to be known of the words before.

## The proof

* `isLeast_least`: a word lowers the number of terms and names that are demanded by one at most, so this number is the
  least number of words that meet the demand.
* `explains_readTerms`: the reader of terms goes by the demand, and stops with the error that belongs to it.
* `accepted_iff_run`, `viable_iff_run`: the words of accepted texts are those that meet the demand for a term, and
  what can be read at all can be continued to such words.
* `standsAt_of_lex`: a token stands in the text at its byte offset, after the words of the tokens before it.
-/

namespace Combinatory

open Text (isBlank)

/-! ### Demands -/

/-- What is still to be read. -/
inductive Demand where
  /-- A number of terms. -/
  | terms (n : Nat)
  /-- A name, as it follows `VAR`, and a number of terms. -/
  | name (n : Nat)

/-- What is to be read after a head if `n` terms follow. -/
def Head.demand : Head → Nat → Demand
  | .var, n => .name n
  | h, n => .terms (h.arity + n)

theorem Head.demand_of_ne_var {h : Head} (hh : h ≠ .var) (n : Nat) : h.demand n = .terms (h.arity + n) := by
  cases h with
  | var => exact absurd rfl hh
  | _ => rfl

/-- Keywords are no names. -/
theorem Head.ofSpelling?_of_isNameToken {w : String} (hw : isNameToken w = true) : Head.ofSpelling? w = none := by
  by_contra hne
  obtain ⟨h, hh⟩ := Option.ne_none_iff_exists'.1 hne
  have hk := h.isKeyword_spelling
  rw [spelling_of_ofSpelling? hh, isKeyword_of_isNameToken hw] at hk
  cases hk

namespace Demand

variable {d d' : Demand} {w : String} {ws : List String}

/-- What is to be read after the word, if the word can be read. -/
def step : Demand → String → Option Demand
  | .terms 0, _ => none
  | .terms (n + 1), w => (Head.ofSpelling? w).map (·.demand n)
  | .name n, w => if isNameToken w then some (.terms n) else none

/-- What is to be read after the words. -/
def run (d : Demand) (ws : List String) : Option Demand := ws.foldlM step d

@[simp] theorem run_nil (d : Demand) : d.run [] = some d := rfl

theorem run_cons (d : Demand) (w : String) (ws : List String) :
    d.run (w :: ws) = (d.step w).bind (·.run ws) := List.foldlM_cons

theorem run_append (d : Demand) (us vs : List String) : d.run (us ++ vs) = (d.run us).bind (·.run vs) :=
  List.foldlM_append

theorem step_of_ofSpelling? {h : Head} (hw : Head.ofSpelling? w = some h) (n : Nat) :
    (terms (n + 1)).step w = some (h.demand n) := by
  rw [step, hw, Option.map_some]

theorem step_name_eq_none_iff {t : Token} (ht : t.Proper) (n : Nat) :
    (name n).step t.text = none ↔ isKeyword t.text.toList = true := by
  cases t with
  | keyword w p =>
    refine iff_of_true (if_neg fun hname => ?_) ht
    have hkeyword : isKeyword w.toList = true := ht
    cases hkeyword.symm.trans (isKeyword_of_isNameToken hname)
  | name x p =>
    have hname : isNameToken x = true := ht
    simp [Token.text, step, hname, isKeyword_of_isNameToken hname]

/-- What a word that can be read is. -/
theorem step_cases (h : d.step w = some d') :
    (∃ n a, d = .terms (n + 1) ∧ w = Head.spelling a ∧ d' = a.demand n) ∨
      ∃ n, d = .name n ∧ isNameToken w = true ∧ d' = .terms n := by
  rcases d with (_ | n) | n
  · cases h
  · obtain ⟨a, ha, rfl⟩ := Option.map_eq_some_iff.1 h
    exact .inl ⟨n, a, rfl, (Head.spelling_of_ofSpelling? ha).symm, rfl⟩
  · rw [step] at h
    split at h
    · cases h
      exact .inr ⟨n, rfl, ‹_›, rfl⟩
    · cases h

/-! ### How many words are missing -/

/-- The number of terms and names. -/
def least : Demand → Nat
  | .terms n => n
  | .name n => n + 1

theorem least_of_step (h : d.step w = some d') : d.least ≤ d'.least + 1 := by
  obtain ⟨n, a, rfl, -, rfl⟩ | ⟨n, rfl, -, rfl⟩ := step_cases h
  · cases a <;> simp [Head.demand, least]
  · exact Nat.le_refl _

theorem least_of_run (h : d.run ws = some d') : d.least ≤ d'.least + ws.length := by
  induction ws generalizing d with
  | nil =>
    cases h
    exact Nat.le_refl _
  | cons w ws ih =>
    rw [run_cons] at h
    obtain ⟨d₁, hstep, hrun⟩ := Option.bind_eq_some_iff.1 h
    have hstep := least_of_step hstep
    have hrun := ih hrun
    rw [List.length_cons]
    omega

theorem run_replicate (n : Nat) : (terms n).run (List.replicate n (Head.const .i).spelling) = some (.terms 0) := by
  induction n with
  | zero => rfl
  | succ n ih =>
    rw [List.replicate_succ, run_cons, step_of_ofSpelling? (Head.ofSpelling?_spelling _), Option.bind_some,
      Head.demand_of_ne_var (by decide), Head.arity, Nat.zero_add, ih]

/-- **A demand is met** by as many words as it has terms and names, and by no fewer. -/
theorem isLeast_least (d : Demand) : IsLeast {k | ∃ us, us.length = k ∧ d.run us = some (.terms 0)} d.least := by
  constructor
  · cases d with
    | terms n => exact ⟨_, List.length_replicate, run_replicate n⟩
    | name n =>
      refine ⟨"x" :: List.replicate n (Head.const .i).spelling, by simp [least], ?_⟩
      rw [run_cons, step, if_pos (by decide)]
      exact run_replicate n
  · rintro _ ⟨us, rfl, hus⟩
    simpa [least] using least_of_run hus

/-! ### Which words meet a demand -/

/-- The words are a written form of what is demanded. -/
def MetBy : Demand → List String → Prop
  | .terms n, ws => ∃ ts : List Term, ts.length = n ∧ (∀ t ∈ ts, t.Readable) ∧ ts.flatMap Term.tokens = ws
  | .name n, ws => ∃ x, isNameToken x = true ∧ ∃ ts : List Term, ts.length = n ∧ (∀ t ∈ ts, t.Readable) ∧
      x :: ts.flatMap Term.tokens = ws

theorem MetBy.of_step (h : d.step w = some d') (hws : d'.MetBy ws) : d.MetBy (w :: ws) := by
  obtain ⟨n, a, rfl, rfl, rfl⟩ | ⟨n, rfl, hw, rfl⟩ := step_cases h
  · by_cases hvar : a = .var
    · subst hvar
      obtain ⟨x, hx, ts, rfl, hts, rfl⟩ := hws
      exact ⟨.var x :: ts, rfl, List.forall_mem_cons.2 ⟨Term.readable_var.2 hx, hts⟩, rfl⟩
    · rw [Head.demand_of_ne_var hvar] at hws
      obtain ⟨ts, hlen, hts, rfl⟩ := hws
      exact ⟨a.assemble ts, Term.assemble_spec hvar hlen hts⟩
  · obtain ⟨ts, hlen, hts, rfl⟩ := hws
    exact ⟨w, hw, ts, hlen, hts, rfl⟩

theorem metBy_of_run (h : d.run ws = some (.terms 0)) : d.MetBy ws := by
  induction ws generalizing d with
  | nil =>
    cases h
    exact ⟨[], rfl, by simp, rfl⟩
  | cons w ws ih =>
    rw [run_cons] at h
    obtain ⟨d₁, hstep, hrun⟩ := Option.bind_eq_some_iff.1 h
    exact .of_step hstep (ih hrun)

/-! ### Where reading stops -/

/-- The error of a word that cannot be read. -/
def fault : Demand → Token → Error
  | .terms 0, t => .trailing t.text t.offset
  | .terms (_ + 1), t => .unrecognized t.text t.offset
  | .name _, t => .invalidVariable (.keyword t.text t.offset)

/-- No token can be read: there is none, or the first one is at fault. -/
def Refuses (d : Demand) : List Token → Error → Prop
  | [], e => e = .unexpectedEnd d.least
  | t :: _, e => d.step t.text = none ∧ e = d.fault t

/-- The tokens are read up to those of `rest`, and `d'` is then to be read. -/
def Reads (d : Demand) (ts : List Token) (d' : Demand) (rest : List Token) : Prop :=
  ∃ us, ts = us ++ rest ∧ d.run (us.map Token.text) = some d'

theorem Reads.refl (d : Demand) (ts : List Token) : d.Reads ts d ts := ⟨[], rfl, rfl⟩

theorem Reads.step {d d₁ d' : Demand} {t : Token} {ts rest : List Token} (ht : d.step t.text = some d₁)
    (h : d₁.Reads ts d' rest) : d.Reads (t :: ts) d' rest := by
  obtain ⟨us, rfl, hus⟩ := h
  refine ⟨t :: us, rfl, ?_⟩
  rw [List.map_cons, run_cons, ht, Option.bind_some, hus]

/-- The reader has read what was demanded, or it has stopped where no token can be read. -/
def Explains (d : Demand) (ts : List Token) : Except Error (List Term × List Token) → Prop
  | .ok (_, rest) => d.Reads ts (.terms 0) rest
  | .error e => ∃ d' rest, d.Reads ts d' rest ∧ d'.Refuses rest e

theorem Explains.of_refuses {ts : List Token} {e : Error} (h : d.Refuses ts e) : d.Explains ts (.error e) :=
  ⟨d, ts, .refl d ts, h⟩

theorem Explains.step {t : Token} {ts : List Token} {r : Except Error (List Term × List Token)}
    (ht : d.step t.text = some d') (h : d'.Explains ts r) : d.Explains (t :: ts) r := by
  rcases r with e | ⟨xs, rest⟩
  · obtain ⟨d₁, rest, hreads, hrefuses⟩ := h
    exact ⟨d₁, rest, hreads.step ht, hrefuses⟩
  · exact Reads.step ht h

/-- What is done with the terms that have been read does not matter. -/
theorem Explains.map {ts : List Token} {r : Except Error (List Term × List Token)} (h : d.Explains ts r)
    (f : List Term → List Term) : d.Explains ts (do let (xs, rest) ← r; return (f xs, rest)) := by
  cases r <;> exact h

end Demand

namespace Term

open Demand

/-- The reader goes by the demand, and stops where it does. -/
theorem explains_readTerms {ts : List Token} (hp : ∀ x ∈ ts, x.Proper) (n : Nat) :
    (Demand.terms n).Explains ts (readTerms ts n) := by
  fun_induction readTerms ts n with
  | case1 ts => exact Reads.refl _ _
  | case2 n => exact .of_refuses rfl
  | case3 w p ts n =>
    have hname : isNameToken w = true := (List.forall_mem_cons.1 hp).1
    exact .of_refuses ⟨by rw [Token.text, step, Head.ofSpelling?_of_isNameToken hname, Option.map_none], rfl⟩
  | case4 w p ts n hw => exact .of_refuses ⟨by rw [Token.text, step, hw, Option.map_none], rfl⟩
  | case5 w p n hw => exact .step (step_of_ofSpelling? hw n) (.of_refuses rfl)
  | case6 w p n hw k q ts =>
    simp only [List.forall_mem_cons] at hp
    exact .step (step_of_ofSpelling? hw n) (.of_refuses ⟨(step_name_eq_none_iff hp.2.1 n).2 hp.2.1, rfl⟩)
  | case7 w p n hw x q ts ih =>
    simp only [List.forall_mem_cons] at hp
    have hx : (Demand.name n).step x = some (.terms n) := if_pos hp.2.1
    exact .step (step_of_ofSpelling? hw n) (.step hx ((ih hp.2.2).map _))
  | case8 w p ts n h hv hw ih =>
    rw [List.forall_mem_cons] at hp
    have hstep := step_of_ofSpelling? hw n
    rw [Head.demand_of_ne_var hv] at hstep
    exact .step hstep ((ih hp.2).map h.assemble)

/-- A rejected text is read up to a place where no token can be read. -/
theorem refuses_of_parse {s : String} {ts : List Token} {e : Error} (hlex : Token.lex s = .ok ts)
    (h : parse s = .error e) : ∃ d rest, (Demand.terms 1).Reads ts d rest ∧ d.Refuses rest e := by
  have hproper := (Token.proper_of_lex hlex).1
  have hexplains := explains_readTerms hproper 1
  rw [parse, hlex] at h
  change (readTerms ts 1 >>= _) = _ at h
  rcases hread : readTerms ts 1 with e' | ⟨terms, rest⟩ <;> rw [hread] at h hexplains
  · cases h
    exact hexplains
  · cases rest with
    | cons t rest =>
      cases h
      exact ⟨_, _, hexplains, rfl, rfl⟩
    | nil =>
      obtain ⟨t, rfl⟩ := List.length_eq_one_iff.1 (reading_of_readTerms hproper hread).1
      cases h

theorem run_of_parse {s : String} {t : Term} (h : parse s = .ok t) :
    (Demand.terms 1).run (blankWords s) = some (.terms 0) := by
  obtain ⟨ts, hlex, h'⟩ := bind_eq_ok.1 h
  obtain ⟨⟨terms, rest⟩, hread, hret⟩ := bind_eq_ok.1 h'
  obtain ⟨hproper, htexts⟩ := Token.proper_of_lex hlex
  have hexplains := explains_readTerms hproper 1
  rw [hread] at hexplains
  obtain ⟨us, hus, hrun⟩ := hexplains
  cases rest with
  | cons x xs => cases hret
  | nil => rw [← htexts, hus, List.append_nil, hrun]

end Term

/-! ### Accepted texts -/

/-- The words are those of a text that is read as a term. -/
def Accepted (ws : List String) : Prop := ∃ s t, Term.parse s = .ok t ∧ blankWords s = ws

/-- An accepted text begins with the words. -/
def Viable (ws : List String) : Prop := ∃ us, Accepted (ws ++ us)

theorem accepted_iff_run {ws : List String} : Accepted ws ↔ (Demand.terms 1).run ws = some (.terms 0) := by
  constructor
  · rintro ⟨s, t, h, rfl⟩
    exact Term.run_of_parse h
  · intro h
    obtain ⟨ts, hlen, hts, rfl⟩ := Demand.metBy_of_run h
    obtain ⟨t, rfl⟩ := List.length_eq_one_iff.1 hlen
    have ht : t.Readable := hts t (List.mem_singleton_self t)
    have hwords := Term.blankWords_print ht
    exact ⟨t.print, t, Term.parse_of_readable ht hwords, by rw [hwords, List.flatMap_singleton]⟩

/-- What is to be read after words decides how they can go on. -/
theorem accepted_append_iff {ws us : List String} {d : Demand} (h : (Demand.terms 1).run ws = some d) :
    Accepted (ws ++ us) ↔ d.run us = some (.terms 0) := by
  rw [accepted_iff_run, Demand.run_append, h, Option.bind_some]

theorem viable_iff_run {ws : List String} : Viable ws ↔ ∃ d, (Demand.terms 1).run ws = some d := by
  constructor
  · rintro ⟨us, hus⟩
    rw [accepted_iff_run, Demand.run_append] at hus
    obtain ⟨d, hd, -⟩ := Option.bind_eq_some_iff.1 hus
    exact ⟨d, hd⟩
  · rintro ⟨d, hd⟩
    obtain ⟨us, -, hus⟩ := d.isLeast_least.1
    exact ⟨us, (accepted_append_iff hd).2 hus⟩

theorem isLeast_accepted {ws : List String} {d : Demand} (h : (Demand.terms 1).run ws = some d) :
    IsLeast {k | ∃ us, us.length = k ∧ Accepted (ws ++ us)} d.least := by
  simpa only [accepted_append_iff h] using d.isLeast_least

theorem not_viable_of_step {ws us : List String} {w : String} {d : Demand} (h : (Demand.terms 1).run ws = some d)
    (hw : d.step w = none) : ¬Viable (ws ++ w :: us) := by
  rw [viable_iff_run, Demand.run_append, h, Option.bind_some, Demand.run_cons, hw]
  rintro ⟨d', hd'⟩
  cases hd'

/-- A name is to be read after `VAR`, and only then. -/
theorem getLast?_eq_var_iff {ws : List String} {d : Demand} (h : (Demand.terms 1).run ws = some d) :
    ws.getLast? = some Head.var.spelling ↔ ∃ n, d = .name n := by
  rcases List.eq_nil_or_concat ws with rfl | ⟨us, w, rfl⟩
  · cases h
    simp
  · rw [List.concat_eq_append, Demand.run_append] at h
    obtain ⟨d₀, -, hw⟩ := Option.bind_eq_some_iff.1 h
    rw [Demand.run_cons] at hw
    obtain ⟨d₁, hstep, hd⟩ := Option.bind_eq_some_iff.1 hw
    cases hd
    rw [List.concat_eq_append, List.getLast?_concat, Option.some.injEq]
    obtain ⟨n, a, -, rfl, rfl⟩ | ⟨n, -, hname, rfl⟩ := Demand.step_cases hstep
    · by_cases ha : a = .var
      · subst ha
        exact iff_of_true rfl ⟨n, rfl⟩
      · have hne : a.spelling ≠ Head.var.spelling := fun h => ha (Head.spelling_injective h)
        simp [hne, Head.demand_of_ne_var ha]
    · have hne : w ≠ Head.var.spelling := by
        rintro rfl
        cases hname
      simp [hne]

/-! ### Places -/

/-- The word stands after the words `ws` in the text, from the byte `p` on. -/
def StandsAt (s : String) (ws : List String) (w : String) (p : Nat) : Prop :=
  ∃ a b : String, s = a ++ w ++ b ∧ blankWords a = ws ∧ a.utf8ByteSize = p

/-- A character in front of words is part of the first one. -/
theorem Word.prepend_eq_append {c : Char} {offset : Nat} {ws us vs : List Word} {w : Word}
    (h : Word.prepend c offset ws = us ++ w :: vs) :
    (us = [] ∧ w = ⟨[c], offset⟩) ∨
      (us = [] ∧ ∃ v, ws = v :: vs ∧ v.offset = offset + c.utf8Size ∧ w = ⟨c :: v.chars, offset⟩) ∨
        ∃ us', ws = us' ++ w :: vs ∧ us = Word.prepend c offset us' := by
  cases us with
  | nil => cases ws <;> grind [prepend]
  | cons u us =>
    refine .inr (.inr ?_)
    cases ws with
    | nil => simp [prepend] at h
    | cons v ws =>
      by_cases hv : v.offset = offset + c.utf8Size
      · rw [prepend, if_pos hv] at h
        obtain ⟨rfl, rfl⟩ := List.cons.inj h
        exact ⟨v :: us, rfl, by rw [prepend, if_pos hv]⟩
      · rw [prepend, if_neg hv] at h
        obtain ⟨rfl, hws⟩ := List.cons.inj h
        refine ⟨us, hws, ?_⟩
        cases us <;> grind [prepend]

/-- Each word is found in the text at its offset, after the words before it. -/
theorem exists_of_wordsFrom {offset : Nat} {cs : List Char} {us vs : List Word} {w : Word}
    (h : wordsFrom offset cs = us ++ w :: vs) :
    ∃ as bs, cs = as ++ w.chars ++ bs ∧ wordsFrom offset as = us ∧
      w.offset = offset + (String.ofList as).utf8ByteSize := by
  induction cs generalizing offset us vs w with
  | nil => simp [wordsFrom] at h
  | cons c cs ih =>
    have hsize (as : List Char) :
        (String.ofList (c :: as)).utf8ByteSize = c.utf8Size + (String.ofList as).utf8ByteSize := by
      rw [String.ofList_cons, String.utf8ByteSize_append, String.utf8ByteSize_singleton]
    rw [wordsFrom] at h
    by_cases hc : isBlank c
    · rw [if_pos hc] at h
      obtain ⟨as, bs, rfl, rfl, ho⟩ := ih h
      exact ⟨c :: as, bs, rfl, by rw [wordsFrom, if_pos hc], by rw [ho, hsize, Nat.add_assoc]⟩
    · rw [if_neg hc] at h
      obtain ⟨rfl, rfl⟩ | ⟨rfl, v, hv, ho, rfl⟩ | ⟨us', hrest, rfl⟩ := Word.prepend_eq_append h
      · exact ⟨[], cs, rfl, rfl, by simp⟩
      · -- `c` starts the word `v` that follows, so nothing stands before `v`
        have hfirst : wordsFrom (offset + c.utf8Size) cs = [] ++ v :: vs := hv
        obtain ⟨as, bs, rfl, -, has⟩ := ih hfirst
        obtain rfl : as = [] := by
          have hzero : (String.ofList as).utf8ByteSize = 0 := by omega
          simpa using hzero
        exact ⟨[], bs, rfl, rfl, by simp⟩
      · obtain ⟨as, bs, rfl, rfl, ho⟩ := ih hrest
        exact ⟨c :: as, bs, rfl, by rw [wordsFrom, if_neg hc], by rw [ho, hsize, Nat.add_assoc]⟩

namespace Token

theorem mapM_ofWord_eq_append {ws : List Word} {us vs : List Token} {t : Token}
    (h : ws.mapM ofWord = .ok (us ++ t :: vs)) :
    ∃ us' w vs', ws = us' ++ w :: vs' ∧ us'.mapM ofWord = .ok us ∧ ofWord w = .ok t := by
  induction us generalizing ws with
  | nil =>
    cases ws with
    | nil => cases h
    | cons w ws =>
      simp only [List.mapM_cons, bind_eq_ok, pure_eq_ok] at h
      obtain ⟨t', ht, vs', -, h⟩ := h
      cases h
      exact ⟨[], w, ws, rfl, rfl, ht⟩
  | cons u us ih =>
    cases ws with
    | nil => cases h
    | cons w ws =>
      simp only [List.mapM_cons, bind_eq_ok, pure_eq_ok] at h
      obtain ⟨t', ht, vs', hvs, h⟩ := h
      cases h
      obtain ⟨us', w', ws', rfl, hus, hw⟩ := ih hvs
      refine ⟨w :: us', w', ws', rfl, ?_, hw⟩
      simp only [List.mapM_cons, bind_eq_ok, pure_eq_ok]
      exact ⟨u, ht, us, hus, rfl⟩

/-- A token stands in the text at its offset. -/
theorem standsAt_of_lex {s : String} {us vs : List Token} {t : Token} (h : lex s = .ok (us ++ t :: vs)) :
    StandsAt s (us.map text) t.text t.offset := by
  rw [lex] at h
  split at h
  · cases h
  · obtain ⟨us', w, vs', hwords, hus, hw⟩ := mapM_ofWord_eq_append h
    obtain ⟨-, htext, hoffset⟩ := ofWord_eq_ok_iff.1 hw
    obtain ⟨as, bs, hs, rfl, ho⟩ := exists_of_wordsFrom hwords
    have hword : w.chars = t.text.toList := by rw [htext, Word.text, String.toList_ofList]
    refine ⟨.ofList as, .ofList bs, ?_, ?_, ?_⟩
    · rw [← String.toList_inj, hs, hword]
      simp
    · rw [(proper_of_mapM_ofWord hus).2, blankWords, String.toList_ofList, ← map_chars_wordsFrom 0, List.map_map]
      rfl
    · rw [hoffset, ho, Nat.zero_add]

end Token

/-! ### Errors -/

namespace Term

/-- **Errors are exact.** If a text of tokens is rejected and an accepted text begins with its words, then the error is
the least number of words that are missing. If none does, the error is about the first word `w` with which no accepted
text goes on, and the byte at which it stands: it is trailing if the words before are accepted, it is a keyword in the
place of a name after `VAR`, and else it is not recognized. -/
theorem parse_error_exact {s : String} {ts : List Token} {e : Error} (hlex : Token.lex s = .ok ts)
    (h : parse s = .error e) :
    (Viable (blankWords s) →
        ∃ n, e = .unexpectedEnd n ∧ IsLeast {k | ∃ us, us.length = k ∧ Accepted (blankWords s ++ us)} n) ∧
      (¬Viable (blankWords s) →
        ∃ ws w us p, blankWords s = ws ++ w :: us ∧ Viable ws ∧ ¬Viable (ws ++ [w]) ∧ StandsAt s ws w p ∧
          (Accepted ws → e = .trailing w p) ∧
          (ws.getLast? = some "VAR" ∧ isKeyword w.toList = true → e = .invalidVariable (.keyword w p)) ∧
          (¬Accepted ws ∧ ¬(ws.getLast? = some "VAR" ∧ isKeyword w.toList = true) → e = .unrecognized w p)) := by
  obtain ⟨hproper, htexts⟩ := Token.proper_of_lex hlex
  obtain ⟨d, rest, ⟨us, rfl, hrun⟩, hrefuses⟩ := refuses_of_parse hlex h
  cases rest with
  | nil =>
    rw [List.append_nil] at htexts
    rw [htexts] at hrun
    exact ⟨fun _ => ⟨d.least, hrefuses, isLeast_accepted hrun⟩, fun hv => absurd (viable_iff_run.2 ⟨d, hrun⟩) hv⟩
  | cons t vs =>
    obtain ⟨hstep, rfl⟩ := hrefuses
    rw [← htexts, List.map_append, List.map_cons]
    refine ⟨fun hv => absurd hv (not_viable_of_step hrun hstep), fun _ => ?_⟩
    refine ⟨us.map Token.text, t.text, vs.map Token.text, t.offset, rfl, viable_iff_run.2 ⟨d, hrun⟩,
      not_viable_of_step hrun hstep, Token.standsAt_of_lex hlex, ?_, ?_, ?_⟩
    · intro ha
      cases hrun.symm.trans (accepted_iff_run.1 ha)
      rfl
    · rintro ⟨hvar, -⟩
      obtain ⟨n, rfl⟩ := (getLast?_eq_var_iff hrun).1 hvar
      rfl
    · rintro ⟨ha, hvar⟩
      rcases d with (_ | n) | n
      · exact absurd (accepted_iff_run.2 hrun) ha
      · rfl
      · have ht : t.Proper := hproper t (by simp)
        have hkeyword := (Demand.step_name_eq_none_iff ht n).1 hstep
        exact absurd ⟨(getLast?_eq_var_iff hrun).2 ⟨n, rfl⟩, hkeyword⟩ hvar

/-- After `LETREC VAR x APP VAR` a name and two terms are missing. `APP VAR K`, with an em space of three bytes after
`APP`, cannot be continued, since `K` at byte 10 is no name. -/
theorem parse_error_exact_unfinished :
    parse "LETREC VAR x APP VAR" = .error (.unexpectedEnd 3) ∧
      IsLeast {k | ∃ us, us.length = k ∧ Accepted (["LETREC", "VAR", "x", "APP", "VAR"] ++ us)} 3 ∧
      parse "APP\u2003VAR K" = .error (.invalidVariable (.keyword "K" 10)) ∧ ¬Viable ["APP", "VAR", "K"] := by
  have hlex : Token.lex "LETREC VAR x APP VAR" = .ok [.keyword "LETREC" 0, .keyword "VAR" 7, .name "x" 11,
      .keyword "APP" 13, .keyword "VAR" 17] := by decide
  have h : parse "LETREC VAR x APP VAR" = .error (.unexpectedEnd 3) := by decide
  have hviable : Viable (blankWords "LETREC VAR x APP VAR") := ⟨["y", "I", "I"],
    "LETREC VAR x APP VAR y I I", .letrec (.var "x") (app (.var "y") (.const .i)) (.const .i), by decide, by decide⟩
  have hlex' : Token.lex "APP\u2003VAR K" = .ok [.keyword "APP" 0, .keyword "VAR" 6, .keyword "K" 10] := by decide
  have h' : parse "APP\u2003VAR K" = .error (.invalidVariable (.keyword "K" 10)) := by decide
  obtain ⟨n, hn, hleast⟩ := (parse_error_exact hlex h).1 hviable
  cases hn
  refine ⟨h, hleast, h', fun hv => ?_⟩
  obtain ⟨n, hn, -⟩ := (parse_error_exact hlex' h').1 hv
  cases hn

end Term

end Combinatory
