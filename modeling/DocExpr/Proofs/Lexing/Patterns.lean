import DocExpr.Proofs.Lexing.Grammar

/-!
# The languages of patterns

`Pattern.language` is what a pattern means as a regular expression. A pattern matches exactly the
texts of its language (`Pattern.accepts_iff`).

Whether two patterns have a text in common can be seen from a few features of theirs: how short and
how long their texts are (`Pattern.shortest`, `Pattern.longest`), and which characters are in none
of them (`Pattern.lacks`) or in all of them (`Pattern.Needs`).
-/

namespace DocExpr.Pattern

/-- The texts that a regular expression is for. -/
def language : Pattern → Language Char
  | one test => Lexeme.one test
  | empty => 1
  | seq p q => p.language * q.language
  | either p q => p.language + q.language
  | repeated least more p => {w | ∃ n, least ≤ n ∧ n ≤ least + more ∧ w ∈ p.language ^ n}

variable {p q : Pattern} {test : Char → Bool} {least more n : Nat} {w cs rest : List Char}
  {c : Char}

theorem mem_language_one : w ∈ (one test).language ↔ ∃ c, test c ∧ w = [c] := Iff.rfl

theorem mem_language_seq : w ∈ (seq p q).language ↔
    ∃ u ∈ p.language, ∃ v ∈ q.language, u ++ v = w :=
  Language.mem_mul

theorem mem_language_either : w ∈ (either p q).language ↔ w ∈ p.language ∨ w ∈ q.language := Iff.rfl

theorem mem_language_repeated :
    w ∈ (repeated least more p).language ↔
    ∃ n, least ≤ n ∧ n ≤ least + more ∧ w ∈ p.language ^ n := Iff.rfl

@[simp] theorem language_char (c : Char) : (char c).language = {[c]} := by
  ext w
  rw [char, mem_language_one]
  constructor
  · rintro ⟨d, hd, hw⟩
    rwa [eq_of_beq hd] at hw
  · exact fun hw => ⟨c, beq_self_eq_true c, hw⟩

@[simp] theorem language_seq (p q : Pattern) : (seq p q).language = p.language * q.language := rfl

@[simp] theorem language_either (p q : Pattern) :
    (either p q).language = p.language + q.language := rfl

@[simp] theorem language_all (ps : List Pattern) : (all ps).language = (ps.map language).prod := by
  induction ps with
  | nil => rfl
  | cons p ps ih => rw [List.map_cons, List.prod_cons, ← ih]; rfl

@[simp] theorem language_times (n : Nat) (p : Pattern) : (times n p).language = p.language ^ n := by
  ext w
  rw [times, mem_language_repeated]
  constructor
  · rintro ⟨m, hn, hm, hw⟩
    rwa [Nat.le_antisymm hm hn] at hw
  · exact fun hw => ⟨n, Nat.le_refl n, Nat.le_refl n, hw⟩

@[simp] theorem language_optional (p : Pattern) : (optional p).language = 1 + p.language := by
  ext w
  rw [optional, mem_language_repeated, Language.mem_add]
  constructor
  · rintro ⟨n, -, hn, hw⟩
    rcases Nat.le_one_iff_eq_zero_or_eq_one.1 hn with rfl | rfl
    · exact .inl (pow_zero p.language ▸ hw)
    · exact .inr (pow_one p.language ▸ hw)
  · rintro (hw | hw)
    · exact ⟨0, Nat.le_refl 0, Nat.zero_le 1, by rwa [pow_zero]⟩
    · exact ⟨1, Nat.zero_le 1, Nat.le_refl 1, by rwa [pow_one]⟩

@[simp] theorem language_anyOf (p : Pattern) (ps : List Pattern) :
    (anyOf p ps).language = p.language + (ps.map language).sum := by
  induction ps generalizing p with
  | nil => rw [List.map_nil, List.sum_nil, add_zero]; rfl
  | cons q ps ih => rw [List.map_cons, List.sum_cons, ← add_assoc, ← language_either, ← ih]; rfl

theorem mem_one_pow : w ∈ (Lexeme.one test) ^ n ↔ w.length = n ∧ ∀ c ∈ w, test c := by
  induction n generalizing w with
  | zero => simp +contextual [List.length_eq_zero_iff]
  | succ n ih =>
    rw [pow_succ', Language.mem_mul]
    constructor
    · rintro ⟨_, ⟨c, hc, rfl⟩, v, hv, rfl⟩
      obtain ⟨rfl, htest⟩ := ih.1 hv
      exact ⟨rfl, List.forall_mem_cons.2 ⟨hc, htest⟩⟩
    · rintro ⟨hlength, hw⟩
      obtain ⟨c, v, rfl⟩ := List.exists_cons_of_length_eq_add_one hlength
      obtain ⟨hc, hv⟩ := List.forall_mem_cons.1 hw
      exact ⟨[c], ⟨c, hc, rfl⟩, v, ih.2 ⟨Nat.succ_inj.1 hlength, hv⟩, rfl⟩

theorem mem_language_repeated_one : w ∈ (repeated least more (one test)).language ↔
    least ≤ w.length ∧ w.length ≤ least + more ∧ ∀ c ∈ w, test c := by
  simp only [language, mem_one_pow]
  exact ⟨fun ⟨n, hn, hn', hw, htest⟩ => ⟨hw ▸ hn, hw ▸ hn', htest⟩,
    fun ⟨hn, hn', htest⟩ => ⟨_, hn, hn', rfl, htest⟩⟩

/-- Texts of a language with a separator between each two. -/
theorem mem_mul_pow_separated {l : Language Char} {separator : Char} :
    w ∈ (l * {[separator]}) ^ n * l ↔ ∃ pieces : List (List Char), pieces.length = n + 1 ∧
      (∀ v ∈ pieces, v ∈ l) ∧ w = [separator].intercalate pieces := by
  induction n generalizing w with
  | zero =>
    rw [pow_zero, one_mul]
    constructor
    · exact fun hw => ⟨[w], rfl, by simpa using hw, by simp⟩
    · rintro ⟨pieces, hlength, hpieces, rfl⟩
      obtain ⟨v, rfl⟩ := List.length_eq_one_iff.1 hlength
      simpa using hpieces
  | succ n ih =>
    rw [pow_succ', mul_assoc, mul_assoc, Language.mem_mul]
    constructor
    · rintro ⟨u, hu, _, hrest, rfl⟩
      obtain ⟨_, rfl, v, hv, rfl⟩ := Language.mem_mul.1 hrest
      obtain ⟨pieces, hlength, hpieces, rfl⟩ := ih.1 hv
      obtain ⟨v, pieces, rfl⟩ := List.exists_cons_of_length_eq_add_one hlength
      refine ⟨u :: v :: pieces, by rw [List.length_cons, hlength], ?_, ?_⟩
      · exact List.forall_mem_cons.2 ⟨hu, hpieces⟩
      · rw [List.intercalate_cons_cons, List.append_assoc]
    · rintro ⟨pieces, hlength, hpieces, rfl⟩
      obtain ⟨u, pieces, rfl⟩ := List.exists_cons_of_length_eq_add_one hlength
      obtain ⟨v, pieces, rfl⟩ := List.exists_cons_of_length_eq_add_one (Nat.succ_inj.1 hlength)
      obtain ⟨hu, hpieces⟩ := List.forall_mem_cons.1 hpieces
      refine ⟨u, hu, _, Language.append_mem_mul rfl (ih.2 ⟨v :: pieces, ?_, hpieces, rfl⟩), ?_⟩
      · exact Nat.succ_inj.1 hlength
      · rw [List.intercalate_cons_cons, List.append_assoc]

/-! ## Matching -/

section Repeated

variable {read : List Char → List (List Char)} {l : Language Char}
  (hread : ∀ cs rest, rest ∈ read cs ↔ ∃ w ∈ l, w ++ rest = cs)

include hread

/-- A text of a language first, and then as many as are read behind it. -/
theorem mem_flatMap_repeatedRests (h : ∀ mid, rest ∈ repeatedRests read least more mid ↔
      ∃ n, least ≤ n ∧ n ≤ least + more ∧ ∃ w ∈ l ^ n, w ++ rest = mid) :
    rest ∈ (read cs).flatMap (repeatedRests read least more) ↔
      ∃ n, least ≤ n ∧ n ≤ least + more ∧ ∃ w ∈ l ^ (n + 1), w ++ rest = cs := by
  simp only [List.mem_flatMap, hread, h, pow_succ', Language.mem_mul]
  constructor
  · rintro ⟨_, ⟨u, hu, rfl⟩, n, hn, hn', w, hw, rfl⟩
    exact ⟨n, hn, hn', u ++ w, ⟨u, hu, w, hw, rfl⟩, List.append_assoc ..⟩
  · rintro ⟨n, hn, hn', _, ⟨u, hu, w, hw, rfl⟩, rfl⟩
    exact ⟨w ++ rest, ⟨u, hu, (List.append_assoc ..).symm⟩, n, hn, hn', w, hw, rfl⟩

/-- What is left when a reader ran several times, if it leaves what is behind the texts of a
language. -/
theorem mem_repeatedRests : rest ∈ repeatedRests read least more cs ↔
    ∃ n, least ≤ n ∧ n ≤ least + more ∧ ∃ w ∈ l ^ n, w ++ rest = cs := by
  induction least generalizing cs with
  | zero =>
    induction more generalizing cs with
    | zero => simp [repeatedRests, eq_comm]
    | succ more ih =>
      rw [repeatedRests, List.mem_cons, mem_flatMap_repeatedRests hread fun mid => ih]
      constructor
      · rintro (rfl | ⟨n, -, hn, h⟩)
        · exact ⟨0, Nat.le_refl 0, Nat.zero_le _, [], rfl, rfl⟩
        · exact ⟨n + 1, Nat.zero_le _, by omega, h⟩
      · rintro ⟨_ | n, -, hn, h⟩
        · obtain ⟨_, rfl, h⟩ := h
          exact .inl h
        · exact .inr ⟨n, Nat.zero_le n, by omega, h⟩
  | succ least ih =>
    rw [repeatedRests, mem_flatMap_repeatedRests hread fun mid => ih]
    constructor
    · rintro ⟨n, hn, hn', h⟩
      exact ⟨n + 1, by omega, by omega, h⟩
    · rintro ⟨n, hn, hn', h⟩
      obtain ⟨n, rfl⟩ := Nat.exists_eq_add_of_le' (Nat.le_trans (Nat.le_add_left 1 least) hn)
      exact ⟨n, by omega, by omega, h⟩

end Repeated

/-- What can be left of a text is what is behind the texts of the language at its start. -/
theorem mem_rests : rest ∈ p.rests cs ↔ ∃ w ∈ p.language, w ++ rest = cs := by
  induction p generalizing cs rest with
  | one test =>
    cases cs with
    | nil => simp [rests, mem_language_one]
    | cons c cs =>
      rw [rests]
      constructor
      · intro h
        split at h
        · next hc =>
          rw [List.mem_singleton.1 h]
          exact ⟨[c], ⟨c, hc, rfl⟩, rfl⟩
        · cases h
      · rintro ⟨_, ⟨d, hd, rfl⟩, h⟩
        obtain ⟨rfl, rfl⟩ := List.cons.inj h
        rw [if_pos hd]
        exact List.mem_singleton_self _
  | empty => simp [rests, language, eq_comm]
  | seq p q ihp ihq =>
    simp only [mem_rests_seq, ihp, ihq, mem_language_seq]
    constructor
    · rintro ⟨_, ⟨u, hu, rfl⟩, v, hv, rfl⟩
      exact ⟨u ++ v, ⟨u, hu, v, hv, rfl⟩, List.append_assoc ..⟩
    · rintro ⟨_, ⟨u, hu, v, hv, rfl⟩, rfl⟩
      exact ⟨v ++ rest, ⟨u, hu, (List.append_assoc ..).symm⟩, v, hv, rfl⟩
  | either p q ihp ihq =>
    simp only [mem_rests_either, ihp, ihq, mem_language_either, or_and_right, exists_or]
  | repeated least more p ih =>
    rw [rests, mem_repeatedRests fun cs rest => ih]
    constructor
    · rintro ⟨n, hn, hn', w, hw, h⟩
      exact ⟨w, ⟨n, hn, hn', hw⟩, h⟩
    · rintro ⟨w, ⟨n, hn, hn', hw⟩, h⟩
      exact ⟨n, hn, hn', w, hw, h⟩

/-- A pattern matches the texts of its language. -/
theorem accepts_iff : p.accepts cs ↔ cs ∈ p.language := by
  simp [accepts, List.any_eq_true, mem_rests]

/-! ## Lengths -/

/-- The least length of a text. -/
def shortest : Pattern → Nat
  | one _ => 1
  | empty => 0
  | seq p q => p.shortest + q.shortest
  | either p q => min p.shortest q.shortest
  | repeated least _ p => least * p.shortest

/-- The greatest length of a text. -/
def longest : Pattern → Nat
  | one _ => 1
  | empty => 0
  | seq p q => p.longest + q.longest
  | either p q => max p.longest q.longest
  | repeated least more p => (least + more) * p.longest

theorem length_of_mem_pow {l : Language Char} {a b : Nat} (h : ∀ w ∈ l, a ≤ w.length ∧ w.length ≤ b)
    (hw : w ∈ l ^ n) : n * a ≤ w.length ∧ w.length ≤ n * b := by
  induction n generalizing w with
  | zero => simp_all
  | succ n ih =>
    rw [pow_succ', Language.mem_mul] at hw
    obtain ⟨u, hu, v, hv, rfl⟩ := hw
    have hu := h u hu
    have hv := ih hv
    rw [List.length_append, Nat.succ_mul, Nat.succ_mul]
    omega

theorem length_of_mem (hw : w ∈ p.language) : p.shortest ≤ w.length ∧ w.length ≤ p.longest := by
  induction p generalizing w with
  | one test =>
    obtain ⟨c, -, rfl⟩ := hw
    exact ⟨Nat.le_refl 1, Nat.le_refl 1⟩
  | empty => simp_all [language, shortest, longest]
  | seq p q ihp ihq =>
    obtain ⟨u, hu, v, hv, rfl⟩ := mem_language_seq.1 hw
    have hu := ihp hu
    have hv := ihq hv
    rw [List.length_append, shortest, longest]
    omega
  | either p q ihp ihq =>
    rw [shortest, longest]
    rcases hw with hw | hw
    · have := ihp hw
      omega
    · have := ihq hw
      omega
  | repeated least more p ih =>
    obtain ⟨n, hn, hn', hw⟩ := hw
    obtain ⟨h, h'⟩ := length_of_mem_pow (fun w hw => ih hw) hw
    exact ⟨Nat.le_trans (Nat.mul_le_mul_right _ hn) h, Nat.le_trans h' (Nat.mul_le_mul_right _ hn')⟩

/-! ## Characters -/

/-- Whether a character is in no text. -/
def lacks (c : Char) : Pattern → Bool
  | one test => !test c
  | empty => true
  | seq p q | either p q => p.lacks c && q.lacks c
  | repeated _ _ p => p.lacks c

/-- Whether a character is in every text. -/
def Needs (c : Char) : Pattern → Prop
  | one test => ∀ d, test d → d = c
  | empty => False
  | seq p q => p.Needs c ∨ q.Needs c
  | either p q => p.Needs c ∧ q.Needs c
  | repeated least _ p => 0 < least ∧ p.Needs c

theorem notMem_of_lacks (hp : p.lacks c) (hw : w ∈ p.language) : c ∉ w := by
  induction p generalizing w with
  | one test =>
    obtain ⟨d, hd, rfl⟩ := hw
    rintro hc
    rw [List.mem_singleton.1 hc] at hp
    simp [lacks, hd] at hp
  | empty => simp_all [language]
  | seq p q ihp ihq =>
    obtain ⟨u, hu, v, hv, rfl⟩ := mem_language_seq.1 hw
    rw [lacks, Bool.and_eq_true] at hp
    rw [List.mem_append, not_or]
    exact ⟨ihp hp.1 hu, ihq hp.2 hv⟩
  | either p q ihp ihq =>
    rw [lacks, Bool.and_eq_true] at hp
    exact hw.elim (ihp hp.1) (ihq hp.2)
  | repeated least more p ih =>
    obtain ⟨n, -, -, hw⟩ := hw
    obtain ⟨pieces, rfl, -, hpieces⟩ := Language.mem_pow.1 hw
    rw [List.mem_flatten]
    rintro ⟨u, hu, hc⟩
    exact ih hp (hpieces u hu) hc

theorem Needs.mem (hp : p.Needs c) (hw : w ∈ p.language) : c ∈ w := by
  induction p generalizing w with
  | one test =>
    obtain ⟨d, hd, rfl⟩ := hw
    simp [hp d hd]
  | empty => cases hp
  | seq p q ihp ihq =>
    obtain ⟨u, hu, v, hv, rfl⟩ := mem_language_seq.1 hw
    exact List.mem_append.2 (hp.imp (fun hp => ihp hp hu) fun hq => ihq hq hv)
  | either p q ihp ihq => exact hw.elim (ihp hp.1) (ihq hp.2)
  | repeated least more p ih =>
    obtain ⟨n, hn, -, hw⟩ := hw
    obtain ⟨n, rfl⟩ := Nat.exists_eq_add_of_le' (Nat.le_trans hp.1 hn)
    rw [pow_succ', Language.mem_mul] at hw
    obtain ⟨u, hu, v, -, rfl⟩ := hw
    exact List.mem_append_left _ (ih hp.2 hu)

theorem needs_char (c : Char) : (char c).Needs c := fun _ => eq_of_beq

theorem needs_all {ps : List Pattern} (hmem : p ∈ ps) (hp : p.Needs c) : (all ps).Needs c := by
  induction ps with
  | nil => cases hmem
  | cons q ps ih =>
    rcases List.mem_cons.1 hmem with rfl | hmem
    · exact .inl hp
    · exact .inr (ih hmem)

theorem needs_anyOf {ps : List Pattern} (hp : p.Needs c) (hps : ∀ q ∈ ps, q.Needs c) :
    (anyOf p ps).Needs c := by
  induction ps generalizing p with
  | nil => exact hp
  | cons q ps ih =>
    obtain ⟨hq, hps⟩ := List.forall_mem_cons.1 hps
    exact ih ⟨hp, hq⟩ hps

/-! ## Patterns without a text in common -/

/-- A pattern does not match what is matched by one whose texts are longer. -/
theorem notMem_of_length (h : p.longest < q.shortest) (hw : w ∈ q.language) : w ∉ p.language := by
  intro hwp
  have hp := length_of_mem hwp
  have hq := length_of_mem hw
  omega

/-- A pattern does not match what is matched by one that needs a character the first never has. -/
theorem notMem_of_needs (hp : p.lacks c) (hq : q.Needs c) (hw : w ∈ q.language) : w ∉ p.language :=
  fun hwp => notMem_of_lacks hp hwp (hq.mem hw)

end DocExpr.Pattern
