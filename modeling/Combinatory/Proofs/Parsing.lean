import Combinatory.Term.Names
import Combinatory.Term.Parser
import Combinatory.Term.Print
import Mathlib.Tactic.Tauto

/-!
# Reading accepts what printing writes

A text is read as a term exactly if its words are the words of the written form of that term, and the term has a
written form: it is well-formed and its names are name tokens.

## The proof

* `map_chars_wordsFrom`: the words found from the right, by their offsets, are those between blanks.
* `Token.ofWord_eq_ok_iff`: the class of a token follows from its text, since the classes have no word in common.
* `Term.Readable.reads` and `Term.reading_of_readTerms`, the two directions for the reader. In both the tokens go on
  after the terms that are read.
-/

namespace Combinatory

open Text

/-- All heads are declared. -/
theorem Head.mem_all (h : Head) : h ∈ all := by
  rcases h with ⟨o⟩ | _ | ⟨u⟩ | ⟨b⟩ | _ | _
  · cases o <;> decide
  · decide
  · cases u <;> decide
  · cases b <;> decide
  · decide
  · decide

/-! ### Words -/

/-- A word that no blank divides. -/
def Undivided (w : List Char) : Prop := w ≠ [] ∧ ∀ c ∈ w, isBlank c = false

/-- The words of a text: what stands between blanks, if it is not empty. -/
def blankWords (s : String) : List String :=
  ((s.toList.splitOnP isBlank).filter (!·.isEmpty)).map String.ofList

theorem Word.prepend_eq_cons (c : Char) (offset : Nat) (ws : List Word) :
    ∃ w ws', Word.prepend c offset ws = w :: ws' ∧ w.offset = offset := by
  cases ws with
  | nil => exact ⟨_, _, rfl, rfl⟩
  | cons w ws =>
    rw [prepend]
    split <;> exact ⟨_, _, rfl, rfl⟩

theorem Word.prepend_of_lt {c : Char} {offset : Nat} {ws : List Word}
    (h : ∀ w ∈ ws, offset + c.utf8Size < w.offset) : Word.prepend c offset ws = ⟨[c], offset⟩ :: ws := by
  cases ws with
  | nil => rfl
  | cons w ws =>
    have := h w List.mem_cons_self
    rw [prepend, if_neg (by omega)]

theorem le_offset_of_mem_wordsFrom {cs : List Char} {offset : Nat} {w : Word} (h : w ∈ wordsFrom offset cs) :
    offset ≤ w.offset := by
  induction cs generalizing offset w with
  | nil => cases h
  | cons c cs ih =>
    rw [wordsFrom] at h
    have hrest {w : Word} (h : w ∈ wordsFrom (offset + c.utf8Size) cs) : offset ≤ w.offset := by
      have := ih h
      omega
    split at h
    · exact hrest h
    · cases hw : wordsFrom (offset + c.utf8Size) cs with
      | nil => simp_all [Word.prepend]
      | cons v ws =>
        rw [hw] at h hrest
        grind [Word.prepend]

/-- Words are found one character at a time from the right, and a character joins the word that starts where it
ends. The words are those between blanks. -/
theorem map_chars_wordsFrom (offset : Nat) (cs : List Char) :
    (wordsFrom offset cs).map Word.chars = (cs.splitOnP isBlank).filter (!·.isEmpty) := by
  induction cs generalizing offset with
  | nil => rfl
  | cons c cs ih =>
    rw [wordsFrom, List.splitOnP_cons_eq_if_modifyHead]
    by_cases hc : isBlank c
    · simp [hc, ih]
    · simp only [hc, Bool.false_eq_true, if_false]
      have hcs := ih (offset + c.utf8Size)
      cases cs with
      | nil => simp [wordsFrom, Word.prepend]
      | cons d ds =>
        rw [List.splitOnP_cons_eq_if_modifyHead] at hcs ⊢
        obtain ⟨part, parts, hparts⟩ := List.exists_cons_of_ne_nil (List.splitOnP_ne_nil isBlank ds)
        by_cases hd : isBlank d
        · -- the next word starts after the blank, so `c` is a word of its own
          rw [Word.prepend_of_lt]
          · simp_all
          · intro w hw
            rw [wordsFrom, if_pos hd] at hw
            have hle := le_offset_of_mem_wordsFrom hw
            have hpos := d.utf8Size_pos
            omega
        · -- `d` starts the next word, and `c` joins it
          rw [wordsFrom, if_neg hd] at hcs ⊢
          obtain ⟨w, ws, hw, hoffset⟩ := Word.prepend_eq_cons d (offset + c.utf8Size)
            (wordsFrom (offset + c.utf8Size + d.utf8Size) ds)
          rw [hw] at hcs ⊢
          rw [Word.prepend, if_pos hoffset]
          simp_all

theorem map_text_words (s : String) : (words s).map Word.text = blankWords s := by
  rw [blankWords, ← map_chars_wordsFrom 0, List.map_map]
  rfl

/-- Words joined by single spaces are found again. -/
theorem blankWords_intercalate {ws : List String} (h : ∀ w ∈ ws, Undivided w.toList) :
    blankWords (" ".intercalate ws) = ws := by
  induction ws with
  | nil => rfl
  | cons w ws ih =>
    rw [List.forall_mem_cons] at h
    obtain ⟨⟨hne, hblank⟩, hws⟩ := h
    have hkeep : (!w.toList.isEmpty) = true := by simpa using hne
    cases ws with
    | nil => simp [blankWords, List.splitOnP_eq_singleton hblank, hkeep]
    | cons v vs =>
      have hsplit : ((" ".intercalate (w :: v :: vs)).toList).splitOnP isBlank =
          w.toList :: ((" ".intercalate (v :: vs)).toList).splitOnP isBlank := by
        rw [String.intercalate_cons_cons, String.toList_append, String.toList_append, List.append_assoc]
        exact List.splitOnP_append_cons_of_forall_mem hblank ' ' (by decide) _
      rw [blankWords, hsplit, List.filter_cons, if_pos hkeep, List.map_cons, String.ofList_toList]
      exact congrArg (w :: ·) (ih hws)

/-! ### Classes of words -/

theorem isUpper_iff {c : Char} : c.isUpper = true ↔ 65 ≤ c.toNat ∧ c.toNat ≤ 90 := decide_eq_true_iff

theorem isLower_iff {c : Char} : c.isLower = true ↔ 97 ≤ c.toNat ∧ c.toNat ≤ 122 :=
  Bool.and_eq_true_iff.trans (and_congr decide_eq_true_iff decide_eq_true_iff)

theorem isAlpha_iff {c : Char} : c.isAlpha = true ↔ c.isUpper = true ∨ c.isLower = true := Bool.or_eq_true_iff

theorem isAlphanum_iff {c : Char} : c.isAlphanum = true ↔ c.isAlpha = true ∨ c.isDigit = true :=
  Bool.or_eq_true_iff

/-- No character of a keyword or name is a blank. -/
theorem isBlank_of_isAlphanum {c : Char} (h : c.isAlphanum = true ∨ c = '_' ∨ c = '.') : isBlank c = false := by
  have hc : 0x20 < c.toNat ∧ c.toNat < 0x7F := by
    rcases h with h | rfl | rfl
    · rw [isAlphanum_iff, isAlpha_iff, isUpper_iff, isLower_iff] at h
      rcases h with h | h
      · omega
      · have hdigit : 48 ≤ c.toNat ∧ c.toNat ≤ 57 := Char.isDigit_iff_toNat.1 h
        omega
    · decide
    · decide
  rw [isBlank, CodePointRanges.contains, List.any_eq_false]
  intro r hr
  simp only [blankRanges, List.mem_cons, List.not_mem_nil, or_false] at hr
  rcases hr with rfl | rfl | rfl | rfl | rfl | rfl | rfl | rfl | rfl | rfl <;>
    simp only [Bool.and_eq_true, decide_eq_true_eq] <;> omega

theorem eq_point_or_mem_segments {w : List Char} {c : Char} (h : c ∈ w) :
    c = '.' ∨ c ∈ (segments w).flatten := by
  induction w with
  | nil => cases h
  | cons d w ih =>
    rw [segments]
    cases hd : d == '.' <;> cases hs : segments w <;> simp_all <;> grind

theorem undivided_of_isKeyword {w : List Char} (h : isKeyword w = true) : Undivided w := by
  simp only [isKeyword, Bool.and_eq_true, Bool.not_eq_true', List.isEmpty_eq_false_iff, List.all_eq_true] at h
  refine ⟨h.1, fun c hc => isBlank_of_isAlphanum (.inl ?_)⟩
  simp [isAlphanum_iff, isAlpha_iff, h.2 c hc]

theorem undivided_of_isLocalName {w : List Char} (h : isLocalName w = true) : Undivided w := by
  cases w with
  | nil => cases h
  | cons c cs =>
    simp only [isLocalName, Bool.and_eq_true, List.all_eq_true, Bool.or_eq_true] at h
    refine ⟨List.cons_ne_nil _ _, fun d hd => isBlank_of_isAlphanum (.inl ?_)⟩
    rcases List.mem_cons.1 hd with rfl | hd
    · simp [isAlphanum_iff, isAlpha_iff, h.1]
    · rcases h.2 d hd with hd | hd <;> simp [isAlphanum_iff, isAlpha_iff, hd]

theorem undivided_of_isGlobalName {w : List Char} (h : isGlobalName w = true) : Undivided w := by
  simp only [isGlobalName, Bool.and_eq_true, List.contains_iff_mem, List.all_eq_true] at h
  refine ⟨List.ne_nil_of_mem h.1, fun c hc => isBlank_of_isAlphanum ?_⟩
  rcases eq_point_or_mem_segments hc with rfl | hc
  · exact .inr (.inr rfl)
  · obtain ⟨part, hpart, hc⟩ := List.mem_flatten.1 hc
    have hid := h.2 part hpart
    cases part with
    | nil => cases hc
    | cons d ds =>
      simp only [isIdentifier, Bool.and_eq_true, List.all_eq_true, Bool.or_eq_true, beq_iff_eq] at hid
      rcases List.mem_cons.1 hc with rfl | hc
      · rcases hid.1 with hid | hid
        · exact .inl (by simp [isAlphanum_iff, hid])
        · exact .inr (.inl hid)
      · rcases hid.2 c hc with hid | hid
        · exact .inl hid
        · exact .inr (.inl hid)

theorem undivided_of_isNameToken {n : String} (h : isNameToken n = true) : Undivided n.toList := by
  rw [isNameToken, Bool.or_eq_true] at h
  exact h.elim undivided_of_isLocalName undivided_of_isGlobalName

/-- A name has a lower-case letter or a point, and a keyword has neither. -/
theorem isKeyword_of_isNameToken {n : String} (h : isNameToken n = true) : isKeyword n.toList = false := by
  rw [isNameToken, Bool.or_eq_true] at h
  rw [← Bool.not_eq_true, isKeyword, Bool.and_eq_true, List.all_eq_true]
  rintro ⟨-, hupper⟩
  rcases h with h | h
  · cases hn : n.toList with
    | nil => simp [hn, isLocalName] at h
    | cons c cs =>
      have hc : c.isUpper = true := hupper c (by simp [hn])
      simp only [hn, isLocalName, Bool.and_eq_true] at h
      rw [isUpper_iff] at hc
      rw [isLower_iff] at h
      omega
  · simp only [isGlobalName, Bool.and_eq_true, List.contains_iff_mem] at h
    exact absurd (hupper '.' h.1) (by decide)

theorem Head.isKeyword_spelling (h : Head) : isKeyword h.spelling.toList = true := by
  have hall : ∀ h ∈ all, isKeyword h.spelling.toList = true := by decide
  exact hall h h.mem_all

/-! ### Tokens -/

namespace Token

/-- The text is in the class that the token is marked with. -/
def Proper : Token → Prop
  | .keyword s _ => isKeyword s.toList = true
  | .name s _ => isNameToken s = true

theorem ofWord_eq_ok_iff {w : Word} {token : Token} :
    ofWord w = .ok token ↔ token.Proper ∧ token.text = w.text ∧ token.offset = w.offset := by
  have hchars : w.chars = w.text.toList := String.toList_ofList.symm
  have hname : (isLocalName w.chars || isGlobalName w.chars) = isNameToken w.text := by rw [isNameToken, hchars]
  rw [ofWord, hname, hchars]
  cases token with
  | keyword s p =>
    simp only [Proper, text, offset]
    split
    · grind
    · split <;> grind
  | name s p =>
    simp only [Proper, text, offset]
    split
    · grind [isKeyword_of_isNameToken]
    · split <;> grind

theorem proper_of_mapM_ofWord {ws : List Word} {ts : List Token} (h : ws.mapM ofWord = .ok ts) :
    (∀ t ∈ ts, t.Proper) ∧ ts.map text = ws.map Word.text := by
  induction ws generalizing ts with
  | nil =>
    cases h
    simp
  | cons w ws ih =>
    simp only [List.mapM_cons, bind_eq_ok, pure_eq_ok] at h
    obtain ⟨t, ht, us, hus, rfl⟩ := h
    obtain ⟨hproper, htext, -⟩ := ofWord_eq_ok_iff.1 ht
    obtain ⟨hps, htexts⟩ := ih hus
    exact ⟨List.forall_mem_cons.2 ⟨hproper, hps⟩, by rw [List.map_cons, List.map_cons, htext, htexts]⟩

theorem exists_mapM_ofWord {ws : List Word}
    (h : ∀ w ∈ ws, isKeyword w.text.toList = true ∨ isNameToken w.text = true) : ∃ ts, ws.mapM ofWord = .ok ts := by
  induction ws with
  | nil => exact ⟨[], rfl⟩
  | cons w ws ih =>
    rw [List.forall_mem_cons] at h
    obtain ⟨us, hus⟩ := ih h.2
    obtain ⟨t, ht⟩ : ∃ t, ofWord w = .ok t := by
      rcases h.1 with hw | hw
      · exact ⟨.keyword w.text w.offset, ofWord_eq_ok_iff.2 ⟨hw, rfl, rfl⟩⟩
      · exact ⟨.name w.text w.offset, ofWord_eq_ok_iff.2 ⟨hw, rfl, rfl⟩⟩
    exact ⟨t :: us, by simp only [List.mapM_cons, bind_eq_ok, pure_eq_ok]; exact ⟨t, ht, us, hus, rfl⟩⟩

/-- The tokens of a text are its words, each of its class. -/
theorem proper_of_lex {s : String} {ts : List Token} (h : lex s = .ok ts) :
    (∀ t ∈ ts, t.Proper) ∧ ts.map text = blankWords s := by
  rw [lex] at h
  split at h
  · cases h
  · rw [← map_text_words]
    exact proper_of_mapM_ofWord h

theorem exists_lex {s : String} (hs : blankWords s ≠ [])
    (h : ∀ w ∈ blankWords s, isKeyword w.toList = true ∨ isNameToken w = true) : ∃ ts, lex s = .ok ts := by
  simp only [← map_text_words, ne_eq, List.map_eq_nil_iff, List.forall_mem_map] at hs h
  rw [lex, if_neg fun hblank => hs hblank.2]
  exact exists_mapM_ofWord h

theorem Proper.eq_keyword {t : Token} (ht : t.Proper) {h : Head} (hh : t.text = h.spelling) :
    ∃ p, t = .keyword h.spelling p := by
  cases t with
  | keyword s p => exact ⟨p, by rw [← hh]; rfl⟩
  | name s p =>
    have hk := h.isKeyword_spelling
    rw [← hh, text, isKeyword_of_isNameToken ht] at hk
    cases hk

theorem Proper.eq_name {t : Token} (ht : t.Proper) {n : String} (hn : isNameToken n = true) (hh : t.text = n) :
    ∃ p, t = .name n p := by
  subst hh
  cases t with
  | keyword s p =>
    have hk := isKeyword_of_isNameToken hn
    rw [text, ht] at hk
    cases hk
  | name s p => exact ⟨p, rfl⟩

end Token

/-! ### Reading -/

namespace Head

/-- A head is found by its spelling. -/
theorem ofSpelling?_spelling (h : Head) : ofSpelling? h.spelling = some h := by
  have hall : ∀ h ∈ all, ofSpelling? h.spelling = some h := by decide
  exact hall h h.mem_all

theorem spelling_of_ofSpelling? {s : String} {h : Head} (hs : ofSpelling? s = some h) : h.spelling = s := by
  simpa using List.find?_some hs

theorem spelling_injective : Function.Injective spelling := by
  intro a b h
  rw [← Option.some.injEq, ← ofSpelling?_spelling a, h, ofSpelling?_spelling]

end Head

namespace Term

/-- The term has a written form that can be read: it is well-formed, and its names are name tokens. -/
def Readable (t : Term) : Prop := t.WellFormed ∧ ∀ n ∈ t.payloads, isNameToken n = true

@[simp] theorem not_readable_name (n : String) : ¬(Term.name n).Readable := fun h => h.1

@[simp] theorem readable_const (o : Const) : (Term.const o).Readable := ⟨trivial, fun _ h => nomatch h⟩

@[simp] theorem readable_var {n : String} : (Term.var n).Readable ↔ isNameToken n = true := by
  simp [Readable, WellFormed, payloads]

@[simp] theorem readable_unary {u : Unary} {x : Term} : (Term.unary u x).Readable ↔ x.Readable := Iff.rfl

@[simp] theorem readable_binary {b : Binary} {x y : Term} :
    (Term.binary b x y).Readable ↔ x.Readable ∧ y.Readable := by
  simp only [Readable, WellFormed, payloads, List.forall_mem_append]
  tauto

@[simp] theorem readable_lambda {p e : Term} : (Term.lambda p e).Readable ↔ p.Readable ∧ e.Readable := by
  simp only [Readable, WellFormed, payloads, List.forall_mem_append]
  tauto

@[simp] theorem readable_letrec {p d e : Term} :
    (Term.letrec p d e).Readable ↔ p.Readable ∧ d.Readable ∧ e.Readable := by
  simp only [Readable, WellFormed, payloads, List.forall_mem_append]
  tauto

theorem readTerms_var (p q : Nat) (x : String) (ts : List Token) (n : Nat) :
    readTerms (.keyword Head.var.spelling p :: .name x q :: ts) (n + 1) =
      (readTerms ts n).map fun r => (.var x :: r.1, r.2) := by
  rw [readTerms, Head.ofSpelling?_spelling]
  rfl

theorem readTerms_head (h : Head) (hh : h ≠ .var) {k : Token} (hk : k.Proper) (htext : k.text = h.spelling)
    (ts : List Token) (n : Nat) :
    readTerms (k :: ts) (n + 1) = (readTerms ts (h.arity + n)).map fun r => (h.assemble r.1, r.2) := by
  obtain ⟨p, rfl⟩ := hk.eq_keyword htext
  rw [readTerms.eq_def]
  simp only [Head.ofSpelling?_spelling]
  cases h with
  | var => exact absurd rfl hh
  | const _ | unary _ | binary _ | lambda | letrec => rfl

/-- The written form of a term is read as that term, whatever tokens follow. -/
def Reads (t : Term) : Prop :=
  ∀ ts : List Token, (∀ x ∈ ts, x.Proper) → ts.map Token.text = t.tokens → ∀ rest n,
    readTerms (ts ++ rest) (n + 1) = (readTerms rest n).map fun r => (t :: r.1, r.2)

/-- The written forms of several terms are read one after the other. -/
theorem readTerms_append {cs : List Term} (hcs : ∀ c ∈ cs, c.Reads) {ts : List Token} (hp : ∀ x ∈ ts, x.Proper)
    (hts : ts.map Token.text = cs.flatMap tokens) (rest : List Token) (n : Nat) :
    readTerms (ts ++ rest) (cs.length + n) = (readTerms rest n).map fun r => (cs ++ r.1, r.2) := by
  induction cs generalizing ts with
  | nil =>
    obtain rfl := List.map_eq_nil_iff.1 hts
    rw [List.nil_append, List.length_nil, Nat.zero_add]
    cases readTerms rest n <;> rfl
  | cons c cs ih =>
    obtain ⟨us, vs, rfl, hus, hvs⟩ := List.map_eq_append_iff.1 hts
    rw [List.forall_mem_append] at hp
    rw [List.forall_mem_cons] at hcs
    rw [List.append_assoc, List.length_cons, Nat.add_right_comm, hcs.1 us hp.1 hus, ih hcs.2 hp.2 hvs]
    cases readTerms rest n <;> rfl

/-- A head followed by the written forms of its children. -/
theorem reads_node {t : Term} (h : Head) (hh : h ≠ .var) (cs : List Term) (hcs : ∀ c ∈ cs, c.Reads)
    (hl : h.arity = cs.length) (ht : t.tokens = h.spelling :: cs.flatMap tokens)
    (hassemble : ∀ us, h.assemble (cs ++ us) = t :: us) : t.Reads := by
  intro ts hp hts rest n
  rw [ht] at hts
  obtain ⟨k, us, rfl, hk, hus⟩ := List.map_eq_cons_iff.1 hts
  rw [List.forall_mem_cons] at hp
  rw [List.cons_append, readTerms_head h hh hp.1 hk, hl, readTerms_append hcs hp.2 hus]
  simp only [← hassemble]
  cases readTerms rest n <;> rfl

theorem reads_var {m : String} (hm : isNameToken m = true) : (Term.var m).Reads := by
  intro ts hp hts rest n
  obtain ⟨k, us, rfl, hk, hus⟩ := List.map_eq_cons_iff.1 hts
  obtain ⟨x, vs, rfl, hx, hvs⟩ := List.map_eq_cons_iff.1 hus
  obtain rfl := List.map_eq_nil_iff.1 hvs
  simp only [List.forall_mem_cons] at hp
  obtain ⟨p, rfl⟩ := hp.1.eq_keyword (h := .var) hk
  obtain ⟨q, rfl⟩ := hp.2.1.eq_name hm hx
  exact readTerms_var p q m rest n

theorem Readable.reads {t : Term} (ht : t.Readable) : t.Reads := by
  induction t with
  | name m => exact absurd ht (not_readable_name m)
  | const o => exact reads_node (.const o) nofun [] nofun rfl rfl fun _ => rfl
  | var m => exact reads_var (readable_var.1 ht)
  | unary u x ihx =>
    exact reads_node (.unary u) nofun [x] (by simpa using ihx ht) rfl (by simp [tokens, Head.spelling]) fun _ => rfl
  | binary b x y ihx ihy =>
    rw [readable_binary] at ht
    exact reads_node (.binary b) nofun [x, y] (by simpa using ⟨ihx ht.1, ihy ht.2⟩) rfl
      (by simp [tokens, Head.spelling]) fun _ => rfl
  | lambda p e ihp ihe =>
    rw [readable_lambda] at ht
    exact reads_node .lambda nofun [p, e] (by simpa using ⟨ihp ht.1, ihe ht.2⟩) rfl (by simp [tokens]) fun _ => rfl
  | letrec p d e ihp ihd ihe =>
    rw [readable_letrec] at ht
    exact reads_node .letrec nofun [p, d, e] (by simpa using ⟨ihp ht.1, ihd ht.2.1, ihe ht.2.2⟩) rfl
      (by simp [tokens]) fun _ => rfl

/-- What a head is put on top of becomes its children. -/
theorem assemble_spec {h : Head} (hh : h ≠ .var) {terms : List Term} {n : Nat} (hl : terms.length = h.arity + n)
    (ht : ∀ t ∈ terms, t.Readable) :
    (h.assemble terms).length = n + 1 ∧ (∀ t ∈ h.assemble terms, t.Readable) ∧
      (h.assemble terms).flatMap tokens = h.spelling :: terms.flatMap tokens := by
  cases h with
  | var => exact absurd rfl hh
  | const o =>
    simp only [Head.arity] at hl
    refine ⟨?_, by simpa [Head.assemble] using ht, by simp [Head.assemble, Head.spelling, tokens]⟩
    simp only [Head.assemble, List.length_cons]
    omega
  | unary u =>
    rcases terms with _ | ⟨x, terms⟩ <;> simp only [List.length_cons, List.length_nil, Head.arity] at hl
    · omega
    · refine ⟨?_, by simpa [Head.assemble] using ht, by simp [Head.assemble, Head.spelling, tokens]⟩
      simp only [Head.assemble, List.length_cons]
      omega
  | binary b =>
    rcases terms with _ | ⟨x, _ | ⟨y, terms⟩⟩ <;> simp only [List.length_cons, List.length_nil, Head.arity] at hl
    · omega
    · omega
    · refine ⟨?_, by simpa [Head.assemble, and_assoc] using ht, by simp [Head.assemble, Head.spelling, tokens]⟩
      simp only [Head.assemble, List.length_cons]
      omega
  | lambda =>
    rcases terms with _ | ⟨x, _ | ⟨y, terms⟩⟩ <;> simp only [List.length_cons, List.length_nil, Head.arity] at hl
    · omega
    · omega
    · refine ⟨?_, by simpa [Head.assemble, and_assoc] using ht, by simp [Head.assemble, tokens]⟩
      simp only [Head.assemble, List.length_cons]
      omega
  | letrec =>
    rcases terms with _ | ⟨x, _ | ⟨y, _ | ⟨z, terms⟩⟩⟩ <;>
      simp only [List.length_cons, List.length_nil, Head.arity] at hl
    · omega
    · omega
    · omega
    · refine ⟨?_, by simpa [Head.assemble, and_assoc] using ht, by simp [Head.assemble, tokens]⟩
      simp only [Head.assemble, List.length_cons]
      omega

/-- What is read are terms with a written form, and the tokens that are gone are those of the written forms. -/
theorem reading_of_readTerms {ts rest : List Token} {n : Nat} {terms : List Term} (hp : ∀ x ∈ ts, x.Proper)
    (h : readTerms ts n = .ok (terms, rest)) :
    terms.length = n ∧ (∀ t ∈ terms, t.Readable) ∧
      ∃ us, ts = us ++ rest ∧ us.map Token.text = terms.flatMap tokens := by
  fun_induction readTerms ts n generalizing terms rest with
  | case1 ts =>
    cases h
    exact ⟨rfl, by simp, [], rfl, rfl⟩
  | case2 n => cases h
  | case3 w p ts n => cases h
  | case4 w p ts n hw => cases h
  | case5 w p n hw => cases h
  | case6 w p n hw k q ts => cases h
  | case7 w p n hw x q ts ih =>
    simp only [List.forall_mem_cons] at hp
    simp only [bind_eq_ok, pure_eq_ok] at h
    obtain ⟨⟨terms', rest'⟩, hr, hret⟩ := h
    cases hret
    obtain ⟨hlen, hread, us, rfl, hus⟩ := ih hp.2.2 hr
    have hx : (Term.var x).Readable := readable_var.2 hp.2.1
    refine ⟨by simp [hlen], List.forall_mem_cons.2 ⟨hx, hread⟩, .keyword w p :: .name x q :: us, rfl, ?_⟩
    simp [hus, Token.text, tokens, Head.spelling_of_ofSpelling? hw]
  | case8 w p ts n h' hv hw ih =>
    simp only [List.forall_mem_cons] at hp
    simp only [bind_eq_ok, pure_eq_ok] at h
    obtain ⟨⟨terms', rest'⟩, hr, hret⟩ := h
    cases hret
    obtain ⟨hlen, hread, us, rfl, hus⟩ := ih hp.2 hr
    obtain ⟨hlen', hread', htokens⟩ := assemble_spec hv hlen hread
    refine ⟨hlen', hread', .keyword w p :: us, rfl, ?_⟩
    rw [htokens, List.map_cons, hus, Head.spelling_of_ofSpelling? hw, Token.text]

/-! ### Texts -/

theorem tokens_ne_nil (t : Term) : t.tokens ≠ [] := by cases t <;> exact List.cons_ne_nil _ _

/-- The words of a written form are keywords and names. -/
theorem isKeyword_or_isNameToken_of_mem_tokens {t : Term} (ht : t.Readable) {w : String} (hw : w ∈ t.tokens) :
    isKeyword w.toList = true ∨ isNameToken w = true := by
  induction t with
  | name m => exact absurd ht (not_readable_name m)
  | const o =>
    obtain rfl := List.mem_singleton.1 hw
    exact .inl (Head.isKeyword_spelling (.const o))
  | var m =>
    simp only [tokens, List.mem_cons, List.not_mem_nil, or_false] at hw
    rcases hw with rfl | rfl
    · exact .inl (Head.isKeyword_spelling .var)
    · exact .inr (readable_var.1 ht)
  | unary u x ihx =>
    rcases List.mem_cons.1 hw with rfl | hw
    · exact .inl (Head.isKeyword_spelling (.unary u))
    · exact ihx ht hw
  | binary b x y ihx ihy =>
    rw [readable_binary] at ht
    simp only [tokens, List.mem_cons, List.mem_append] at hw
    rcases hw with rfl | hw | hw
    · exact .inl (Head.isKeyword_spelling (.binary b))
    · exact ihx ht.1 hw
    · exact ihy ht.2 hw
  | lambda p e ihp ihe =>
    rw [readable_lambda] at ht
    simp only [tokens, List.mem_cons, List.mem_append] at hw
    rcases hw with rfl | hw | hw
    · exact .inl (Head.isKeyword_spelling .lambda)
    · exact ihp ht.1 hw
    · exact ihe ht.2 hw
  | letrec p d e ihp ihd ihe =>
    rw [readable_letrec] at ht
    simp only [tokens, List.mem_cons, List.mem_append] at hw
    rcases hw with rfl | (hw | hw) | hw
    · exact .inl (Head.isKeyword_spelling .letrec)
    · exact ihp ht.1 hw
    · exact ihd ht.2.1 hw
    · exact ihe ht.2.2 hw

theorem blankWords_print {t : Term} (ht : t.Readable) : blankWords t.print = t.tokens :=
  blankWords_intercalate fun _ hw => (isKeyword_or_isNameToken_of_mem_tokens ht hw).elim
    undivided_of_isKeyword undivided_of_isNameToken

theorem readable_of_parse {s : String} {t : Term} (h : parse s = .ok t) : t.Readable ∧ blankWords s = t.tokens := by
  obtain ⟨ts, hlex, h⟩ := bind_eq_ok.1 h
  obtain ⟨⟨terms, rest⟩, hread, h⟩ := bind_eq_ok.1 h
  obtain ⟨hproper, htexts⟩ := Token.proper_of_lex hlex
  obtain ⟨hlen, hterms, us, rfl, hus⟩ := reading_of_readTerms hproper hread
  obtain ⟨t', rfl⟩ := List.length_eq_one_iff.1 hlen
  cases rest with
  | cons x xs => cases h
  | nil =>
    cases h
    refine ⟨hterms t (List.mem_singleton_self t), ?_⟩
    rw [← htexts, List.append_nil, hus, List.flatMap_singleton]

theorem parse_of_readable {s : String} {t : Term} (ht : t.Readable) (hs : blankWords s = t.tokens) :
    parse s = .ok t := by
  obtain ⟨ts, hlex⟩ := Token.exists_lex (s := s) (hs ▸ t.tokens_ne_nil)
    (hs ▸ fun w hw => isKeyword_or_isNameToken_of_mem_tokens ht hw)
  obtain ⟨hproper, htexts⟩ := Token.proper_of_lex hlex
  have hread := ht.reads ts hproper (htexts.trans hs) [] 0
  rw [List.append_nil] at hread
  rw [parse, hlex]
  change (readTerms ts 1 >>= _) = _
  rw [hread]
  rfl

/-- **Reading accepts exactly the written forms**: a text is read as a term if and only if the term is well-formed
with name tokens for names, and the words of the text are those of the written form. So the written form of such a
term, and of no other, is read as that term, and it is each text that is read so with its words joined by single
spaces. -/
theorem parse_eq_ok_iff (s : String) (t : Term) :
    (parse s = .ok t ↔
        t.WellFormed ∧ (∀ n ∈ t.payloads, isNameToken n = true) ∧ blankWords s = t.tokens) ∧
      (parse t.print = .ok t ↔ t.WellFormed ∧ ∀ n ∈ t.payloads, isNameToken n = true) ∧
      (parse s = .ok t → t.print = " ".intercalate (blankWords s)) := by
  refine ⟨⟨fun h => ?_, fun ⟨hw, hn, hs⟩ => parse_of_readable ⟨hw, hn⟩ hs⟩,
    ⟨fun h => (readable_of_parse h).1, fun h => parse_of_readable h (blankWords_print h)⟩, fun h => ?_⟩
  · obtain ⟨⟨hw, hn⟩, hs⟩ := readable_of_parse h
    exact ⟨hw, hn, hs⟩
  · rw [(readable_of_parse h).2]
    rfl

/-- Words may be separated by any blanks: here a tab, an em space, a line feed and a no-break space. -/
theorem parse_blanks :
    parse "\tAPP LAMBDA VAR x2\u2003VAR x2\n VAR nat.Succ\u00a0" =
        .ok (app (.lambda (.var "x2") (.var "x2")) (.var "nat.Succ")) ∧
      (app (.lambda (.var "x2") (.var "x2")) (.var "nat.Succ")).print =
        " ".intercalate (blankWords "\tAPP LAMBDA VAR x2\u2003VAR x2\n VAR nat.Succ\u00a0") := by
  have h := parse_eq_ok_iff "\tAPP LAMBDA VAR x2\u2003VAR x2\n VAR nat.Succ\u00a0"
    (app (.lambda (.var "x2") (.var "x2")) (.var "nat.Succ"))
  have hparse := h.1.2 ⟨by simp [WellFormed], by decide, by decide⟩
  exact ⟨hparse, h.2.2 hparse⟩

end Term

end Combinatory
