import DocExpr.Proofs.Lexing.Forms
import Mathlib.Tactic.IntervalCases

/-!
# Internet addresses

What is an address can be said by counting. An address of version 4 is four decimal numbers that are
at most 255 (`Literal.IsV4`). An address of version 6 is a sequence of groups, with a colon or a
double colon between each two (`Literal.Sequence`): of eight groups without a double colon, or of at
most seven with exactly one (`Literal.IsV6`).

The patterns of addresses count by alternatives with bounds of their own. `Literal.mem_octet` and
`Literal.mem_ipv6` say what the alternatives come to, and `Literal.sequence_one_gap_iff` takes a
sequence apart at its double colon. So the addresses are the literals that are classified as such
(`Literal.classify_address_iff`).
-/

namespace DocExpr.Literal

open Pattern

/-! ## Addresses, by counting -/

/-- A digit of base sixteen, in small or capital letters. -/
def isHexDigit (c : Char) : Bool := isDigit c || ('a' ≤ c && c ≤ 'f') || ('A' ≤ c && c ≤ 'F')

/-- Whether a text is a decimal number up to 255, of one to three digits. -/
structure IsOctet (w : List Char) : Prop where
  nonempty : 1 ≤ w.length
  length : w.length ≤ 3
  digits : ∀ c ∈ w, isDigit c
  value : Nat.ofDigitChars 10 w 0 ≤ 255

/-- Whether a text is four octets with dots between them. -/
def IsV4 (u : List Char) : Prop :=
  ∃ octets : List (List Char), octets.length = 4 ∧ (∀ w ∈ octets, IsOctet w) ∧
    u = ['.'].intercalate octets

/-- Whether a text is one to four digits of base sixteen. -/
structure IsSegment (w : List Char) : Prop where
  nonempty : 1 ≤ w.length
  length : w.length ≤ 4
  digits : ∀ c ∈ w, isHexDigit c

/-- Groups from the first one on: how many there are, and how many double colons there are behind
groups. An address of version 4 can be the last group, with no double colon behind it, and counts as
two. -/
inductive Groups : Nat → Nat → List Char → Prop where
  | segment {w : List Char} (h : IsSegment w) : Groups 1 0 w
  | ipv4 {w : List Char} (h : IsV4 w) : Groups 2 0 w
  | colon {groups gaps : Nat} {w u : List Char} (h : IsSegment w) (rest : Groups groups gaps u) :
      Groups (groups + 1) gaps (w ++ ':' :: u)
  | gap {groups gaps : Nat} {w u : List Char} (h : IsSegment w) (rest : Groups groups gaps u) :
      Groups (groups + 1) (gaps + 1) (w ++ ':' :: ':' :: u)
  | lastGap {w : List Char} (h : IsSegment w) : Groups 1 1 (w ++ [':', ':'])

/-- A sequence of groups: how many groups and how many double colons there are. A double colon can
also be the first of it, or all. -/
inductive Sequence : Nat → Nat → List Char → Prop where
  | groups {groups gaps : Nat} {u : List Char} (h : Groups groups gaps u) : Sequence groups gaps u
  | firstGap {groups gaps : Nat} {u : List Char} (h : Groups groups gaps u) :
      Sequence groups (gaps + 1) (':' :: ':' :: u)
  | onlyGap : Sequence 0 1 [':', ':']

/-- Whether a text is eight groups, or at most seven with one double colon. -/
def IsV6 (u : List Char) : Prop :=
  ∃ groups gaps, Sequence groups gaps u ∧ (gaps = 0 ∧ groups = 8 ∨ gaps = 1 ∧ groups ≤ 7)

variable {c : Char} {u v w : List Char} {n : Nat}

/-! ## Version 4 -/

theorem le_iff_toNat_le {d : Char} : c ≤ d ↔ c.toNat ≤ d.toNat := UInt32.le_iff_toNat_le

theorem isDigit_iff_toNat : isDigit c ↔ 48 ≤ c.toNat ∧ c.toNat ≤ 57 := by
  rw [isDigit, Bool.and_eq_true, decide_eq_true_eq, decide_eq_true_eq, le_iff_toNat_le,
    le_iff_toNat_le]
  rfl

theorem isOctet_iff : IsOctet w ↔
    (1 ≤ w.length ∧ w.length ≤ 3) ∧ (∀ c ∈ w, isDigit c) ∧ Nat.ofDigitChars 10 w 0 ≤ 255 :=
  ⟨fun h => ⟨⟨h.nonempty, h.length⟩, h.digits, h.value⟩, fun ⟨⟨h, h'⟩, hd, hv⟩ => ⟨h, h', hd, hv⟩⟩

section Octets

variable {a b c : Char}

theorem accepts_octet_one : octet.accepts [a] ↔ isDigit a := by
  simp [accepts, octet, anyOf, all, rests, repeatedRests, char, Pattern.optional, oneOf, digit,
    digitUpTo]

theorem accepts_octet_two : octet.accepts [a, b] ↔ isDigit a ∧ isDigit b := by
  have hsmall : a = '0' ∨ a = '1' → isDigit a := by
    rintro (rfl | rfl) <;> decide
  simp +contextual [accepts, octet, anyOf, all, rests, repeatedRests, char, Pattern.optional,
    oneOf, digit, digitUpTo, hsmall]

/-- The alternatives for an octet of three digits: from 250 on, from 200 on, and smaller ones. -/
theorem accepts_octet_three : octet.accepts [a, b, c] ↔ a = '2' ∧ b = '5' ∧ ('0' ≤ c ∧ c ≤ '5') ∨
    a = '2' ∧ ('0' ≤ b ∧ b ≤ '4') ∧ isDigit c ∨ (a = '0' ∨ a = '1') ∧ isDigit b ∧ isDigit c := by
  simp [accepts, octet, anyOf, all, rests, repeatedRests, char, Pattern.optional, oneOf, digit,
    digitUpTo]

end Octets

/-- The alternatives for an octet are the numbers up to 255. -/
theorem mem_octet : w ∈ octet.language ↔ IsOctet w := by
  have hlength : w ∈ octet.language → 1 ≤ w.length ∧ w.length ≤ 3 := fun h => length_of_mem h
  rw [isOctet_iff]
  match w with
  | [] =>
    exact iff_of_false (fun h => absurd (hlength h).1 (by decide)) fun h => absurd h.1.1 (by decide)
  | [a] =>
    rw [← accepts_iff, accepts_octet_one]
    simp [isDigit_iff_toNat, Nat.ofDigitChars_cons]
    omega
  | [a, b] =>
    rw [← accepts_iff, accepts_octet_two]
    simp [isDigit_iff_toNat, Nat.ofDigitChars_cons]
    omega
  | [a, b, c] =>
    rw [← accepts_iff, accepts_octet_three]
    simp only [List.forall_mem_cons, List.not_mem_nil, false_implies, implies_true, and_true,
      isDigit_iff_toNat, le_iff_toNat_le, ← Char.toNat_inj, Nat.ofDigitChars_cons,
      Nat.ofDigitChars_nil,
      List.length_cons, List.length_nil, Char.reduceToNat]
    omega
  | a :: b :: c :: d :: w =>
    refine iff_of_false (fun h => ?_) fun h => ?_
    · exact absurd (hlength h).2 (by simp)
    · exact absurd h.1.2 (by simp)

theorem mem_ipv4 : u ∈ ipv4.language ↔ IsV4 u := by
  have hmul : ipv4.language = (octet.language * {['.']}) ^ 3 * octet.language := by
    simp [ipv4, mul_pow_mul]
  rw [hmul, mem_mul_pow_separated]
  simp only [mem_octet]
  rfl

/-! ## Groups of version 6 -/

theorem mem_segment : w ∈ segment.language ↔ IsSegment w :=
  mem_language_repeated_one.trans
    ⟨fun ⟨h, h', hd⟩ => ⟨h, h', hd⟩, fun h => ⟨h.nonempty, h.length, h.digits⟩⟩

theorem mem_segmentColon_mul {l : Language Char} :
    u ∈ segmentColon.language * l ↔ ∃ w v, IsSegment w ∧ v ∈ l ∧ u = w ++ ':' :: v := by
  rw [segmentColon, language_seq, language_char, mul_assoc, Language.mem_mul]
  constructor
  · rintro ⟨w, hw, _, hrest, rfl⟩
    obtain ⟨_, rfl, v, hv, rfl⟩ := Language.mem_mul.1 hrest
    exact ⟨w, v, mem_segment.1 hw, hv, rfl⟩
  · rintro ⟨w, v, hw, hv, rfl⟩
    exact ⟨w, mem_segment.2 hw, _, Language.append_mem_mul rfl hv, rfl⟩

theorem mem_gap_mul {l : Language Char} : u ∈ gap.language * l ↔ ∃ v ∈ l, u = ':' :: ':' :: v := by
  rw [gap, language_seq, language_char, Language.mem_mul]
  constructor
  · rintro ⟨_, ⟨_, rfl, _, rfl, rfl⟩, v, hv, rfl⟩
    exact ⟨v, hv, rfl⟩
  · rintro ⟨v, hv, rfl⟩
    exact ⟨_, ⟨_, rfl, _, rfl, rfl⟩, v, hv, rfl⟩

/-- So many segments, perhaps none, with colons between them. -/
def before : Nat → Language Char
  | 0 => 1
  | n + 1 => segmentColon.language ^ n * segment.language

/-- Groups that count so many, perhaps none, with colons between them. -/
def behind : Nat → Language Char
  | 0 => 1
  | 1 => segment.language
  | n + 2 => segmentColon.language ^ n * lastTwo.language

theorem mem_before_one : w ∈ before 1 ↔ IsSegment w := by
  rw [before, pow_zero, one_mul, mem_segment]

theorem mem_before_succ :
    u ∈ before (n + 2) ↔ ∃ w v, IsSegment w ∧ v ∈ before (n + 1) ∧ u = w ++ ':' :: v := by
  rw [before, pow_succ', mul_assoc, mem_segmentColon_mul]
  rfl

theorem mem_behind_two :
    u ∈ behind 2 ↔ (∃ w v, IsSegment w ∧ IsSegment v ∧ u = w ++ ':' :: v) ∨ IsV4 u := by
  rw [behind, pow_zero, one_mul, lastTwo, mem_language_either, language_seq,
    mem_segmentColon_mul, mem_ipv4]
  simp only [mem_segment]

theorem mem_behind_succ :
    u ∈ behind (n + 3) ↔ ∃ w v, IsSegment w ∧ v ∈ behind (n + 2) ∧ u = w ++ ':' :: v := by
  rw [behind, pow_succ', mul_assoc, mem_segmentColon_mul]
  rfl

theorem Groups.pos {groups gaps : Nat} (h : Groups groups gaps u) : 0 < groups := by
  cases h <;> exact Nat.succ_pos _

/-- Groups without a double colon are what can be behind one. -/
theorem groups_no_gap_iff : Groups (n + 1) 0 u ↔ u ∈ behind (n + 1) := by
  induction n generalizing u with
  | zero =>
    rw [behind, mem_segment]
    constructor
    · intro h
      cases h with
      | segment h => exact h
      | colon _ rest => exact absurd rest.pos (Nat.lt_irrefl 0)
    · exact .segment
  | succ n ih =>
    constructor
    · intro h
      cases h with
      | ipv4 h => exact mem_behind_two.2 (.inr h)
      | colon h rest =>
        cases n with
        | zero => exact mem_behind_two.2 (.inl ⟨_, _, h, mem_segment.1 (ih.1 rest), rfl⟩)
        | succ n => exact mem_behind_succ.2 ⟨_, _, h, ih.1 rest, rfl⟩
    · intro h
      cases n with
      | zero =>
        rcases mem_behind_two.1 h with ⟨w, v, hw, hv, rfl⟩ | h
        · exact .colon hw (.segment hv)
        · exact .ipv4 h
      | succ n =>
        obtain ⟨w, v, hw, hv, rfl⟩ := mem_behind_succ.1 h
        exact .colon hw (ih.2 hv)

/-! ## The double colon -/

/-- Groups on both sides of a double colon. -/
def around (m k : Nat) : Language Char := before m * (gap.language * behind k)

theorem mem_around {m k : Nat} :
    u ∈ around m k ↔ ∃ w v, w ∈ before m ∧ v ∈ behind k ∧ u = w ++ ':' :: ':' :: v := by
  rw [around, Language.mem_mul]
  constructor
  · rintro ⟨w, hw, _, hrest, rfl⟩
    obtain ⟨v, hv, rfl⟩ := mem_gap_mul.1 hrest
    exact ⟨w, v, hw, hv, rfl⟩
  · rintro ⟨w, v, hw, hv, rfl⟩
    exact ⟨w, hw, _, mem_gap_mul.2 ⟨v, hv, rfl⟩, rfl⟩

/-- Groups with one double colon have segments before it. -/
theorem Groups.around {gaps : Nat} (h : Groups n gaps u) (hgaps : gaps = 1) :
    ∃ m k, n = m + 1 + k ∧ u ∈ around (m + 1) k := by
  induction h with
  | segment | ipv4 => cases hgaps
  | colon h rest ih =>
    obtain ⟨m, k, rfl, hrest⟩ := ih hgaps
    obtain ⟨w, v, hw, hv, rfl⟩ := mem_around.1 hrest
    refine ⟨m + 1, k, by omega, mem_around.2 ⟨_, v, mem_before_succ.2 ⟨_, w, h, hw, rfl⟩, hv, ?_⟩⟩
    rw [List.append_assoc, List.cons_append]
  | @gap groups _ _ _ h rest =>
    cases hgaps
    obtain ⟨k, rfl⟩ := Nat.exists_eq_add_of_le' rest.pos
    exact ⟨0, k + 1, by omega,
      mem_around.2 ⟨_, _, mem_before_one.2 h, groups_no_gap_iff.1 rest, rfl⟩⟩
  | lastGap h => exact ⟨0, 0, rfl, mem_around.2 ⟨_, [], mem_before_one.2 h, rfl, rfl⟩⟩

theorem groups_of_around {m k : Nat} (h : u ∈ around (m + 1) k) : Groups (m + 1 + k) 1 u := by
  obtain ⟨w, v, hw, hv, rfl⟩ := mem_around.1 h
  clear h
  induction m generalizing w with
  | zero =>
    rw [mem_before_one] at hw
    cases k with
    | zero =>
      cases hv
      exact .lastGap hw
    | succ k =>
      have h := Groups.gap hw (groups_no_gap_iff.2 hv)
      rwa [show 0 + 1 + (k + 1) = k + 1 + 1 by omega]
  | succ m ih =>
    obtain ⟨w, w', hsegment, hw', rfl⟩ := mem_before_succ.1 hw
    have h := Groups.colon hsegment (ih w' hw')
    rwa [show m + 1 + 1 + k = m + 1 + k + 1 by omega, List.append_assoc, List.cons_append]

/-- A sequence with one double colon is segments, the double colon, and groups, perhaps none on
either side. -/
theorem sequence_one_gap_iff : Sequence n 1 u ↔ ∃ m k, n = m + k ∧ u ∈ around m k := by
  constructor
  · intro h
    cases h with
    | groups h =>
      obtain ⟨m, k, hn, hu⟩ := h.around rfl
      exact ⟨m + 1, k, hn, hu⟩
    | firstGap h =>
      obtain ⟨k, rfl⟩ := Nat.exists_eq_add_of_le' h.pos
      exact ⟨0, k + 1, (Nat.zero_add _).symm, mem_around.2 ⟨[], _, rfl, groups_no_gap_iff.1 h, rfl⟩⟩
    | onlyGap => exact ⟨0, 0, rfl, mem_around.2 ⟨[], [], rfl, rfl, rfl⟩⟩
  · rintro ⟨m, k, rfl, hu⟩
    cases m with
    | zero =>
      obtain ⟨w, v, hw, hv, rfl⟩ := mem_around.1 hu
      cases hw
      rw [Nat.zero_add]
      cases k with
      | zero =>
        cases hv
        exact .onlyGap
      | succ k => exact .firstGap (groups_no_gap_iff.2 hv)
    | succ m => exact .groups (groups_of_around hu)

theorem sequence_no_gap_iff : Sequence (n + 1) 0 u ↔ u ∈ behind (n + 1) := by
  rw [← groups_no_gap_iff]
  exact ⟨fun h => by cases h; assumption, .groups⟩

/-! ## Version 6 -/

/-- At most so many segments, with colons between them. -/
def atMost (n : Nat) : Language Char := {w | ∃ m ≤ n, w ∈ before m}

theorem atMost_zero : atMost 0 = 1 := by
  ext w
  constructor
  · rintro ⟨m, hm, hw⟩
    rwa [Nat.le_zero.1 hm] at hw
  · exact fun hw => ⟨0, Nat.le_refl 0, hw⟩

theorem language_upTo (most : Nat) : (upTo most).language = atMost (most + 1) := by
  ext w
  rw [upTo, language_optional, language_seq, Language.mem_add, Language.mem_mul]
  constructor
  · rintro (hw | ⟨_, ⟨n, -, hn, hu⟩, v, hv, rfl⟩)
    · exact ⟨0, Nat.zero_le _, hw⟩
    · exact ⟨n + 1, by omega, Language.append_mem_mul hu hv⟩
  · rintro ⟨_ | n, hn, hw⟩
    · exact .inl hw
    · obtain ⟨u, hu, v, hv, rfl⟩ := Language.mem_mul.1 hw
      exact .inr ⟨u, ⟨n, Nat.zero_le n, by omega, hu⟩, v, hv, rfl⟩

/-- The alternatives for an address of version 6: eight groups, or so many groups behind a double
colon and at most as many before it as make seven. -/
theorem mem_ipv6_alternatives :
    u ∈ ipv6.language ↔ u ∈ behind 8 ∨ ∃ k ≤ 7, u ∈ atMost (7 - k) * (gap.language * behind k) := by
  have hlanguage : ipv6.language = behind 8 + (atMost 0 * (gap.language * behind 7) +
      (atMost 1 * (gap.language * behind 6) + (atMost 2 * (gap.language * behind 5) +
      (atMost 3 * (gap.language * behind 4) + (atMost 4 * (gap.language * behind 3) +
      (atMost 5 * (gap.language * behind 2) + (atMost 6 * (gap.language * behind 1) +
      atMost 7 * (gap.language * behind 0)))))))) := by
    simp [ipv6, behind, language_upTo, atMost_zero]
  rw [hlanguage]
  simp only [Language.mem_add]
  constructor
  · rintro (h | h | h | h | h | h | h | h | h)
    · exact .inl h
    · exact .inr ⟨7, by decide, h⟩
    · exact .inr ⟨6, by decide, h⟩
    · exact .inr ⟨5, by decide, h⟩
    · exact .inr ⟨4, by decide, h⟩
    · exact .inr ⟨3, by decide, h⟩
    · exact .inr ⟨2, by decide, h⟩
    · exact .inr ⟨1, by decide, h⟩
    · exact .inr ⟨0, by decide, h⟩
  · rintro (h | ⟨k, hk, h⟩)
    · exact .inl h
    · interval_cases k <;> simp only [h, true_or, or_true]

theorem mem_ipv6 : u ∈ ipv6.language ↔ IsV6 u := by
  rw [mem_ipv6_alternatives]
  constructor
  · rintro (h | ⟨k, hk, h⟩)
    · exact ⟨8, 0, sequence_no_gap_iff.2 h, .inl ⟨rfl, rfl⟩⟩
    · obtain ⟨w, ⟨m, hm, hw⟩, v, hv, rfl⟩ := Language.mem_mul.1 h
      exact ⟨m + k, 1, sequence_one_gap_iff.2 ⟨m, k, rfl, Language.append_mem_mul hw hv⟩,
        .inr ⟨rfl, by omega⟩⟩
  · rintro ⟨groups, gaps, h, ⟨rfl, rfl⟩ | ⟨rfl, hgroups⟩⟩
    · exact .inl (sequence_no_gap_iff.1 h)
    · obtain ⟨m, k, rfl, hu⟩ := sequence_one_gap_iff.1 h
      obtain ⟨w, hw, v, hv, rfl⟩ := Language.mem_mul.1 hu
      exact .inr ⟨k, by omega, Language.append_mem_mul ⟨m, by omega, hw⟩ hv⟩

/-- A single-quoted literal is classified as an address exactly if it is one by counting. -/
theorem classify_address_iff (u : List Char) :
    (classify (inQuotes u) = .address .v4 ↔ IsV4 u) ∧
    (classify (inQuotes u) = .address .v6 ↔ IsV6 u) := by
  have h4 : (Kind.address .v4, ipv4) ∈ forms := by simp [forms]
  have h6 : (Kind.address .v6, ipv6) ∈ forms := by simp [forms]
  rw [← mem_ipv4, ← mem_ipv6]
  exact ⟨classify_quoted_iff h4, classify_quoted_iff h6⟩

end DocExpr.Literal
