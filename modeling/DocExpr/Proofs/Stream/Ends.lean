import DocExpr.Proofs.Lexing.Stable
import DocExpr.Stream.Layer
import Mathlib.Algebra.Group.Nat.Defs
import Mathlib.Data.List.GetD

/-!
# The end of the input is seen

A stream says after every token whether only ends of the input are left (`Stream.atEofAfter`). What
it says is exact if it is exact behind each of its readings (`Stream.Foresees`). Source texts and
lists of tokens are so (`Source.foresees`), and every layer keeps it so (`Stream.foresees_through`),
although a layer holds tokens back and puts others between them: whatever is held back and is no end
of the input makes it say that there is more.

A layer gives at most two tokens for one (`Stream.length_through_le`), so the end is always reached.
-/

namespace DocExpr

/-! ## Sources -/

/-- What tokens are read from. -/
inductive Source where
  | text (text file : String)
  /-- A list of tokens, among which there may be ends of the input. -/
  | tokens (ts : List Token) (file : String)

/-- The stream of a source, without layers. -/
def Source.stream : Source → Stream
  | .text cs file => .ofText cs file
  | .tokens ts file => .ofTokens file ts

namespace Stream

/-- What is read after so many readings. -/
def nthReading (s : Stream) (n : Nat) : Reading := s.readings.getD n s.lastReading

/-- Whether a stream says, when so many tokens have been read, that only ends of the input are
left. -/
def atEofAfter (s : Stream) : Nat → Bool
  | 0 => s.atEof
  | n + 1 => (s.nthReading n).atEof

end Stream

/-! ## Readings that see the end -/

/-- Whether readings are of ends of the input only. -/
def onlyEofs (rs : List Reading) : Bool := rs.all fun r => r.token.kind == .eof

/-- Whether each of some readings says exactly whether the others behind it are of ends of the input
only. -/
def Foresees : List Reading → Prop
  | [] => True
  | r :: rs => r.atEof = onlyEofs rs ∧ Foresees rs

variable {r finish : Reading} {rs : List Reading} {s : Stream}

@[simp] theorem onlyEofs_nil : onlyEofs [] = true := rfl

@[simp] theorem onlyEofs_cons (r : Reading) (rs : List Reading) :
    onlyEofs (r :: rs) = (r.token.kind == .eof && onlyEofs rs) := rfl

theorem Foresees.getD (h : Foresees rs) (hlast : finish.atEof = true) (n : Nat) :
    (rs.getD n finish).atEof = onlyEofs (rs.drop (n + 1)) := by
  induction rs generalizing n with
  | nil => simpa using hlast
  | cons r rs ih =>
    cases n with
    | zero => exact h.1
    | succ n => exact ih h.2 n

theorem onlyEofs_drop (hfinish : finish.token.kind = .eof) (n : Nat) :
    onlyEofs (rs.drop n) = true ↔ ∀ i, n ≤ i → (rs.getD i finish).token.kind = .eof := by
  constructor
  · intro h i hi
    rcases Nat.lt_or_ge i rs.length with hlt | hge
    · have hmem : rs[i] ∈ rs.drop n := List.mem_drop_iff_getElem.2 ⟨i - n, by omega, by simp [hi]⟩
      rw [List.getD_eq_getElem _ _ hlt]
      exact eq_of_beq (List.all_eq_true.1 h _ hmem)
    · rwa [List.getD_eq_default _ _ hge]
  · intro h
    refine List.all_eq_true.2 fun r hr => ?_
    obtain ⟨i, hi, rfl⟩ := List.mem_drop_iff_getElem.1 hr
    have hkind := h (i + n) (Nat.le_add_left n i)
    rw [List.getD_eq_getElem _ _ hi] at hkind
    simpa [Nat.add_comm] using hkind

/-! ## Runs of lines -/

namespace Runs

variable {form : RunForm}

theorem onlyEofs_merge (hline : form.line ≠ .eof) (finish : Reading) (run? : Option Run)
    (rs : List Reading) : onlyEofs (merge form finish run? rs) = (run?.isNone && onlyEofs rs) := by
  have hclose : ∀ (run : Run) next, ((run.close form next).token.kind == Kind.eof) = false :=
    fun _ _ => rfl
  induction rs generalizing run? with
  | nil => cases run? <;> simp [merge, hclose]
  | cons r rs ih =>
    by_cases hr : r.token.kind = form.line
    · have hkind : (r.token.kind == .eof) = false := by simpa [hr] using hline
      cases run? with
      | none => rw [merge, if_pos hr, ih, onlyEofs_cons, hkind]; rfl
      | some run =>
        rw [merge, if_pos hr]
        split <;> simp [ih, hclose]
    · cases run? with
      | none => simp [merge, hr, ih]
      | some run => simp [merge, hr, hclose]

/-- Merging runs of lines keeps in sight where the end is: to see the end of a run, the next token
has been read, and the run says of it what it says itself. -/
theorem foresees_merge (hline : form.line ≠ .eof)
    (hfinish : finish.token.kind = .eof ∧ finish.atEof = true)
    (h : Foresees rs) (run? : Option Run) : Foresees (merge form finish run? rs) := by
  have hclose : ∀ (run : Run) (next : Reading),
      (run.close form next).atEof = (next.token.kind == .eof && next.atEof) := fun _ _ => rfl
  induction rs generalizing run? with
  | nil =>
    cases run? with
    | none => trivial
    | some run => exact ⟨by simp [hclose, hfinish], trivial⟩
  | cons r rs ih =>
    obtain ⟨hr, hrs⟩ := h
    have hnext := onlyEofs_merge hline finish none rs
    by_cases hk : r.token.kind = form.line
    · have hkind : (r.token.kind == .eof) = false := by simpa [hk] using hline
      cases run? with
      | none =>
        rw [merge, if_pos hk]
        exact ih hrs _
      | some run =>
        rw [merge, if_pos hk]
        split
        · exact ih hrs _
        · refine ⟨?_, ih hrs _⟩
          rw [hclose, hkind, onlyEofs_merge hline]
          rfl
    · cases run? with
      | none =>
        rw [merge, if_neg hk]
        exact ⟨by rw [hr, hnext]; rfl, ih hrs none⟩
      | some run =>
        rw [merge, if_neg hk]
        refine ⟨?_, ?_, ih hrs none⟩
        · rw [hclose, hr, onlyEofs_cons, hnext]
          rfl
        · show r.atEof = _
          rw [hr, hnext]
          rfl

theorem length_merge_le (form : RunForm) (finish : Reading) (run? : Option Run)
    (rs : List Reading) :
    (merge form finish run? rs).length ≤ run?.toList.length + rs.length := by
  induction rs generalizing run? with
  | nil => cases run? <;> simp [merge]
  | cons r rs ih =>
    have hnone := ih none
    have hsome := fun run => ih (some run)
    simp only [Option.toList_none, Option.toList_some, List.length_nil,
      List.length_singleton] at hnone hsome
    cases run? with
    | none =>
      rw [merge]
      split
      · have := hsome (.start r)
        simp only [Option.toList_none, List.length_nil, List.length_cons]
        omega
      · simpa using hnone
    | some run =>
      rw [merge]
      split
      · split
        · have := hsome (run.push r)
          simp only [Option.toList_some, List.length_cons]
          omega
        · have := hsome (.start (quiet r))
          simp only [Option.toList_some, List.length_cons]
          omega
      · simp only [Option.toList_some, List.length_cons]
        omega

end Runs

/-! ## Documentation -/

namespace Documentation

/-- What placing a token comes to: it is held back in place of the token before it, which is given
out; or at most two tokens are given out and something is held back that is no end of the input. -/
theorem place_cases (held : Token) (r : Reading) :
    place held r = ⟨[⟨held, r.events, r.token.kind == .eof && r.atEof⟩], r.token⟩ ∨
      ∃ events ts, (place held r).given = inOrder events ts ∧ 0 < ts.length ∧ ts.length ≤ 2 ∧
        (place held r).held.kind ≠ .eof ∧ (held.kind == .eof && r.token.kind == .eof) = false := by
  have trailing : ∀ (events : List Event) (t : Token), t.kind = .block .trailing →
      ∃ events' ts, (placeTrailing held events t).given = inOrder events' ts ∧ 0 < ts.length ∧
        ts.length ≤ 2 ∧ (placeTrailing held events t).held.kind ≠ .eof := by
    intro events t ht
    unfold placeTrailing
    split
    · next hseparator =>
      refine ⟨_, _, rfl, Nat.zero_lt_two, Nat.le_refl 2, fun heof => ?_⟩
      simp [isSeparator, show held.kind = .eof from heof] at hseparator
    · split
      · exact ⟨_, _, rfl, Nat.zero_lt_one, Nat.le_succ 1, by simp [ht]⟩
      · exact ⟨_, _, rfl, Nat.zero_lt_two, Nat.le_refl 2, by simp [ht]⟩
  unfold place
  simp only
  split
  · next hleading =>
    have hkind : (held.kind == .eof && r.token.kind == .eof) = false := by simp [hleading]
    right
    split
    · obtain ⟨events, ts, hgiven, hpos, hle, hheld⟩ :=
        trailing _ { r.token with kind := .block .trailing } rfl
      exact ⟨events, ts, hgiven, hpos, hle, hheld, hkind⟩
    · exact ⟨_, _, rfl, Nat.zero_lt_two, Nat.le_refl 2, by simp, hkind⟩
  · split
    · next htrailing =>
      obtain ⟨events, ts, hgiven, hpos, hle, hheld⟩ := trailing r.events r.token htrailing
      exact .inr ⟨events, ts, hgiven, hpos, hle, hheld, by simp [htrailing]⟩
    · exact .inl rfl

/-- Readings behind which there is more. -/
theorem foresees_inOrder_append (events : List Event) (ts : List Token) (hrs : onlyEofs rs = false)
    (h : Foresees rs) : Foresees (inOrder events ts ++ rs) ∧
    onlyEofs (inOrder events ts ++ rs) = false := by
  induction ts generalizing events with
  | nil => exact ⟨h, hrs⟩
  | cons t ts ih =>
    obtain ⟨hforesees, honly⟩ := ih []
    exact ⟨⟨honly.symm, hforesees⟩,
      by rw [inOrder, List.cons_append, onlyEofs_cons, honly, Bool.and_false]⟩

theorem onlyEofs_attach (held : Token) (rs : List Reading) :
    onlyEofs (attach held rs) = (held.kind == .eof && onlyEofs rs) := by
  induction rs generalizing held with
  | nil => rfl
  | cons r rs ih =>
    rw [attach, onlyEofs_cons]
    rcases place_cases held r with hplace | ⟨events, ts, hgiven, -, -, hheld, hkind⟩
    · simp [hplace, ih]
    · have hrest : onlyEofs (attach (place held r).held rs) = false := by simp [ih, hheld]
      have honly : onlyEofs (inOrder events ts ++ attach (place held r).held rs) = false := by
        rw [onlyEofs, List.all_append, ← onlyEofs, ← onlyEofs, hrest, Bool.and_false]
      rw [hgiven, honly, ← Bool.and_assoc, hkind, Bool.false_and]

/-- Attaching documentation keeps in sight where the end is: only a token that is passed on is an
end of the input, and it says behind it what it said before. -/
theorem foresees_attach (h : Foresees rs) (held : Token) : Foresees (attach held rs) := by
  induction rs generalizing held with
  | nil => exact ⟨rfl, trivial⟩
  | cons r rs ih =>
    obtain ⟨hr, hrs⟩ := h
    rw [attach]
    rcases place_cases held r with hplace | ⟨events, ts, hgiven, -, -, hheld, -⟩
    · rw [hplace]
      refine ⟨?_, ih hrs r.token⟩
      show _ = onlyEofs (attach r.token rs)
      rw [onlyEofs_attach, hr]
    · rw [hgiven]
      exact (foresees_inOrder_append events ts (by simp [onlyEofs_attach, hheld]) (ih hrs _)).1

theorem length_attach_le (held : Token) (rs : List Reading) :
    (attach held rs).length ≤ 2 * rs.length + 1 := by
  have hinOrder : ∀ (events : List Event) (ts : List Token),
      (inOrder events ts).length = ts.length := by
    intro events ts
    induction ts generalizing events with
    | nil => rfl
    | cons t ts ih => rw [inOrder, List.length_cons, ih, List.length_cons]
  induction rs generalizing held with
  | nil => exact Nat.le_refl 1
  | cons r rs ih =>
    have hrest := ih (place held r).held
    rw [attach, List.length_append, List.length_cons]
    rcases place_cases held r with hplace | ⟨events, ts, hgiven, -, hle, -⟩
    · have hone : (place held r).given.length = 1 := by rw [hplace]; rfl
      omega
    · rw [hgiven, hinOrder]
      omega

end Documentation

/-! ## Streams -/

/-- Whether a stream says, before and behind each of its readings, exactly whether only ends of the
input are left. -/
structure Stream.Foresees (s : Stream) : Prop where
  opened : s.atEof = onlyEofs s.readings
  readings : DocExpr.Foresees s.readings

namespace Source

theorem foresees_readingsOfTokens (ts : List Token) : Foresees (Stream.readingsOfTokens ts) ∧
    onlyEofs (Stream.readingsOfTokens ts) = ts.all fun t => t.kind == .eof := by
  induction ts with
  | nil => exact ⟨trivial, rfl⟩
  | cons t ts ih =>
    exact ⟨⟨ih.2.symm, ih.1⟩, by rw [Stream.readingsOfTokens, onlyEofs_cons, ih.2]; rfl⟩

/-- A text has no more tokens exactly if it has only space left. -/
theorem onlyEofs_scan (file : String) (p : Position) (cs : List Char) :
    onlyEofs (Stream.scan file p 0 cs) = cs.all Lexeme.isSpace := by
  induction cs generalizing p with
  | nil => rfl
  | cons c cs ih =>
    rw [Stream.scan, List.all_cons]
    split
    · next hc => rw [ih, hc, Bool.true_and]
    · next hc =>
      have hkind : ((Lexeme.read c cs).kind == .eof) = false := by
        simpa using (Lexeme.read_kind_ne c cs).1
      rw [onlyEofs_cons, Bool.eq_false_iff.2 hc, Bool.false_and]
      show ((Lexeme.read c cs).kind == .eof && _) = false
      rw [hkind, Bool.false_and]

theorem foresees_scan (file : String) (p : Position) (skip : Nat) (cs : List Char) :
    Foresees (Stream.scan file p skip cs) := by
  induction cs generalizing p skip with
  | nil => cases skip <;> trivial
  | cons c cs ih =>
    cases skip with
    | succ skip => exact ih ..
    | zero =>
      rw [Stream.scan]
      split
      · exact ih ..
      · refine ⟨?_, ih ..⟩
        rw [Stream.scan_skip, onlyEofs_scan]
        rfl

/-- A source says exactly where its end is. -/
theorem foresees (source : Source) : source.stream.Foresees := by
  cases source with
  | text text file => exact ⟨(onlyEofs_scan ..).symm, foresees_scan ..⟩
  | tokens ts file =>
    obtain ⟨hreadings, hopened⟩ := foresees_readingsOfTokens ts
    exact ⟨hopened.symm, hreadings⟩

end Source

namespace Stream

open Documentation

/-- Attaching documentation keeps in sight where the end is. -/
theorem foresees_attachDocumentation (h : s.Foresees) : s.attachDocumentation.Foresees := by
  have hline : commentRuns.line ≠ .eof := by decide
  have hlast : s.lastReading.token.kind = .eof ∧ s.lastReading.atEof = true := ⟨rfl, rfl⟩
  have hmerge := Runs.foresees_merge hline hlast h.readings none
  have honly := Runs.onlyEofs_merge hline s.lastReading none s.readings
  unfold attachDocumentation
  split
  · exact ⟨rfl, trivial⟩
  · next first rest hfirst =>
    rw [hfirst] at hmerge honly
    obtain ⟨hat, hrest⟩ := hmerge
    rw [onlyEofs_cons, ← hat] at honly
    split
    · next hcomment =>
      have hdocument := foresees_inOrder_append [] [first.token]
        (onlyEofs_attach (.document first.token.origin) rest) (foresees_attach hrest _)
      refine ⟨?_, hdocument.1⟩
      obtain ⟨r, hr, hkind⟩ := (Option.any_eq_true _ _).1 hcomment
      obtain ⟨rs, hrs⟩ := List.head?_eq_some_iff.1 hr
      show (first.token.kind == .eof && first.atEof) = _
      rw [hdocument.2, honly, hrs, onlyEofs_cons, of_decide_eq_true hkind]
      rfl
    · exact ⟨by rw [onlyEofs_attach, ← hat], foresees_attach hrest _⟩

theorem foresees_mergeStrings (h : s.Foresees) : s.mergeStrings.Foresees := by
  have hline : stringRuns.line ≠ .eof := by decide
  have hlast : s.lastReading.token.kind = .eof ∧ s.lastReading.atEof = true := ⟨rfl, rfl⟩
  have hmerge := Runs.foresees_merge hline hlast h.readings none
  refine ⟨?_, hmerge⟩
  show s.atEof = onlyEofs (Runs.merge stringRuns s.lastReading none s.readings)
  rw [Runs.onlyEofs_merge hline, h.opened]
  rfl

theorem foresees_through (h : s.Foresees) (layer : Layer) : (s.through layer).Foresees := by
  cases layer with
  | documentation => exact foresees_attachDocumentation h
  | multiline => exact foresees_mergeStrings h

/-- A layer gives at most two tokens for one. -/
theorem length_through_le (s : Stream) (layer : Layer) :
    (s.through layer).readings.length ≤ 2 * s.readings.length := by
  cases layer with
  | documentation =>
    have hmerge := Runs.length_merge_le commentRuns s.lastReading none s.readings
    rw [through, attachDocumentation]
    split
    · exact Nat.zero_le _
    · next first rest hfirst =>
      rw [hfirst] at hmerge
      have hheld := length_attach_le first.token rest
      have hdocument := length_attach_le (.document first.token.origin) rest
      simp only [Option.toList_none, List.length_nil, List.length_cons] at hmerge
      split
      · simp only [inOrder, List.length_append, List.length_singleton]
        omega
      · simp only
        omega
  | multiline =>
    have hmerge := Runs.length_merge_le stringRuns s.lastReading none s.readings
    simp only [Option.toList_none, List.length_nil] at hmerge
    show (Runs.merge stringRuns s.lastReading none s.readings).length ≤ _
    omega

/-- Layers over a stream keep in sight where its end is, and give a bounded number of tokens. -/
theorem foresees_throughAll (h : s.Foresees) (layers : List Layer) :
    (s.throughAll layers).Foresees ∧
    (s.throughAll layers).readings.length ≤ 2 ^ layers.length * s.readings.length := by
  induction layers generalizing s with
  | nil => exact ⟨h, by simp [throughAll]⟩
  | cons layer layers ih =>
    obtain ⟨hforesees, hlength⟩ := ih (foresees_through h layer)
    refine ⟨hforesees, Nat.le_trans hlength ?_⟩
    rw [List.length_cons, Nat.pow_succ, Nat.mul_assoc]
    exact Nat.mul_le_mul_left _ (s.length_through_le layer)

/-- What is said of a stream that says exactly where its end is. -/
theorem atEofAfter_iff_of_foresees (h : s.Foresees) (n : Nat) :
    s.atEofAfter n = true ↔ ∀ i, n ≤ i → (s.nthReading i).token.kind = .eof := by
  have hafter : s.atEofAfter n = onlyEofs (s.readings.drop n) := by
    cases n with
    | zero => exact h.opened
    | succ n => exact h.readings.getD rfl n
  rw [hafter]
  exact onlyEofs_drop rfl n

/-- Whatever is read through whatever layers: that only ends of the input are left is said after so
many readings exactly if every later reading is of an end of the input, and it is said sooner or
later. -/
theorem atEofAfter_iff (source : Source) (layers : List Layer) :
    let s := source.stream.throughAll layers
    (∀ n, s.atEofAfter n = true ↔ ∀ i, n ≤ i → (s.nthReading i).token.kind = .eof) ∧
      ∃ n ≤ 2 ^ layers.length * source.stream.readings.length, s.atEofAfter n = true := by
  intro s
  obtain ⟨hforesees, hlength⟩ := foresees_throughAll source.foresees layers
  have hiff := atEofAfter_iff_of_foresees hforesees
  refine ⟨hiff, s.readings.length, hlength, (hiff _).2 fun i hi => ?_⟩
  rw [nthReading, List.getD_eq_default _ _ hi]
  rfl

/-- An end of the input between tokens is none of the last ones. -/
example :
    let o : Origin := ⟨"", 1, 1, 0⟩
    let s :=
      (Source.tokens [.eof o, ⟨.tickedLine, "`", o⟩, .eof o] "").stream.throughAll standardLayers
    (List.range 4).map s.atEofAfter = [false, false, true, true] := by decide

end Stream

end DocExpr
