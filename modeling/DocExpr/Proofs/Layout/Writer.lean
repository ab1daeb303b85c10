import DocExpr.Proofs.Grammar.Canonical
import DocExpr.Proofs.Layout.Spelling

/-!
# What is written is read as the tree

Writing a tree adds its canonical text to a page (`Page.Holds.write`): by induction on the tree,
from a page on which an operand can follow to one on which an operand is complete. The tree must be
admissible, and its symbols such that they can be written again, on one line each.
-/

namespace DocExpr

/-- Whether a name or a literal is on one line. -/
def Symbol.OneLine : Symbol → Prop
  | .atom _ text => '\n' ∉ text.toList
  | _ => True

namespace Page

variable {p : Page} {s t : List Symbol}

/-- A part that is written one level deeper, perhaps. -/
theorem Holds.indentedIfSpaced {state next : List Glyph → List Char → Prop} {body : Page → Page}
    (hless : ∀ {q : Page}, q.Holds t next → q.indentLess.Holds t next)
    (hbody : ∀ {q : Page}, q.Holds s state → (body q).Holds t next) (h : p.Holds s state) :
    (p.indentedIfSpaced body).Holds t next := by
  unfold Page.indentedIfSpaced indentedIf
  split
  · exact hless (hbody (h.congr rfl rfl rfl))
  · exact hbody h

theorem Holds.spaced {state next : List Glyph → List Char → Prop} (mode : Spacing)
    (body : Page → Page) (hbody : ∀ {q : Page}, q.Holds s state → (body q).Holds t next)
    (h : p.Holds s state) : (p.spaced mode body).Holds t next := by
  have := hbody (q := p.pushMode mode) (h.congr rfl rfl rfl)
  exact this.congr (q := p.spaced mode body) rfl rfl rfl

theorem Holds.aligned {state next : List Glyph → List Char → Prop} {body : Page → Page}
    (hbody : ∀ {q : Page}, q.Holds s state → (body q).Holds t next) (h : p.Holds s state) :
    (p.aligned body).Holds t next := by
  have := hbody (q := p.indentToColumn) (h.congr rfl rfl rfl)
  exact this.congr (q := p.aligned body) rfl rfl rfl

/-- Items in parentheses, where an operand can follow or one is complete. -/
theorem Holds.parenthesized {spacing : Spacing} {items : Page → Page}
    (hitems : ∀ {q : Page} {s : List Symbol}, q.Holds s Ready → (items q).Holds (s ++ t) Settled)
    (h : p.Holds s Settled) : (p.parenthesized spacing items).Holds
      (s ++ ([.mark .leftParenthesis] ++ t ++ [.mark .rightParenthesis])) Done := by
  have hopen := h.open (m := .leftParenthesis) (by simp)
  have hinner := Holds.spaced spacing (fun p => p.verticalSpacing.indentedIfSpaced items)
    (fun hq => Holds.indentedIfSpaced Holds.indentLess hitems hq.verticalSpacing_ready) hopen
  have := hinner.close (m := .rightParenthesis) (by simp)
  simpa [Page.parenthesized, Mark.spelling] using this

end Page

namespace Expr

open Page

/-- Whether the symbols of a tree can be written again, on one line each. -/
def Writable (e : Expr) : Prop := ∀ x ∈ e.spell, x.Printable ∧ x.OneLine

theorem writable_of_mem_joined (separator : Symbol) {es : List Expr}
    (h : ∀ x ∈ spellAll separator es, x.Printable ∧ x.OneLine) : ∀ e ∈ es, e.Writable :=
  forall_mem_spell h

theorem spellAll_eq_flatMap (separator : Symbol) (e : Expr) (es : List Expr) :
    spellAll separator (e :: es) = e.spell ++ es.flatMap fun f => separator :: f.spell := by
  induction es generalizing e with
  | nil => simp [spellAll]
  | cons f es ih => rw [spellAll_cons _ _ (by simp), ih]; simp

mutual

/-- Writing a tree where an operand can follow adds its text. -/
theorem holds_write {p : Page} {s : List Symbol} : (e : Expr) → e.Admissible → e.Writable →
    p.Holds s Ready → (e.write p).Holds (s ++ e.spell) Done
  | atom form text _, _, hw, h => by
    obtain ⟨hstable, hline⟩ := hw (.atom form text) (by simp [spell])
    simpa [write, spell] using h.atom hstable hline
  | block form lines _, _, hw, h => by
    obtain ⟨⟨rfl, hn, hlines⟩, -⟩ := hw (.block form lines) (by simp [spell])
    simpa [write, spell] using Holds.aligned (fun hq => hq.block hn hlines) h
  | suffixed form item _, ha, hw, h => by
    have hi :=
      holds_write item (admissible_suffixed.1 ha).2 (fun x hx => hw x (by simp [spell, hx])) h
    simpa [write, spell] using hi.suffix form
  | map item key _, ha, hw, h => by
    obtain ⟨-, hai, hak⟩ := admissible_map.1 ha
    have hi := holds_write item hai (fun x hx => hw x (by simp [spell, hx])) h
    have hk := holds_write key hak (fun x hx => hw x (by simp [spell, hx]))
      (hi.settled_of_done.open (m := .leftBrace) (by simp))
    simpa [write, spell, Mark.spelling] using hk.settled_of_done.close (m := .rightBrace) (by simp)
  | call callee (group items o) _, ha, hw, h => by
    obtain ⟨-, hac, hai⟩ := admissible_call.1 ha
    have hwi : ∀ f ∈ items, f.Writable :=
      writable_of_mem_joined (.mark .comma) fun x hx => hw x (by simp [spell, hx])
    have hc := holds_write callee hac (fun x hx => hw x (by simp [spell, hx])) h
    simpa [write, spell] using Holds.parenthesized
      (fun hq => holds_writeItems items (admissible_group.1 hai) hwi hq) hc.settled_of_done
  | call _ (atom ..) _, ha, _, _ | call _ (block ..) _, ha, _, _ | call _ (suffixed ..) _, ha, _, _
  | call _ (map ..) _, ha, _, _ | call _ (call ..) _, ha, _, _ | call _ (array ..) _, ha, _, _
  | call _ (chain ..) _, ha, _, _ | call _ (unary ..) _, ha, _, _ => by
    simp [isGroup] at ha
  | array elements _, ha, hw, h => by
    have hwe : ∀ f ∈ elements, f.Writable :=
      writable_of_mem_joined (.mark .comma) fun x hx => hw x (by simp [spell, hx])
    have hopen := h.settled_of_ready.open (m := .leftBracket) (by simp)
    have hinner : (writeSeparated ", " elements (p.append "[")).Holds
        (s ++ [.mark .leftBracket] ++ spellAll (.mark .comma) elements) Settled := by
      by_cases hn : elements = []
      · subst hn
        simpa [writeSeparated, spellAll, Mark.spelling] using hopen.settled_of_ready
      · exact (holds_writeSeparated (fun hq => hq.settled_of_done.comma) elements hn
          (admissible_array.1 ha) hwe hopen).settled_of_done
    simpa [write, spell, Mark.spelling] using hinner.close (m := .rightBracket) (by simp)
  | group items _, ha, hw, h => by
    have hwi : ∀ f ∈ items, f.Writable :=
      writable_of_mem_joined (.mark .comma) fun x hx => hw x (by simp [spell, hx])
    simpa [write, spell] using Holds.parenthesized
      (fun hq => holds_writeItems items (admissible_group.1 ha) hwi hq) h.settled_of_ready
  | chain op operands _, ha, hw, h => by
    obtain ⟨⟨hlen, -⟩, hparts⟩ := admissible_chain.1 ha
    have hwo := writable_of_mem_joined (.kind op.kind) hw
    obtain ⟨e, es, rfl, hn⟩ : ∃ e es, operands = e :: es ∧ es ≠ [] := by
      obtain ⟨e, f, es, rfl⟩ := exists_cons_cons hlen
      exact ⟨e, f :: es, rfl, by simp⟩
    have hop : op ≠ .document := by
      rintro rfl
      exact (hw (.kind .document) (by simp [spell, spellAll_cons _ e hn, BinaryOp.kind])).1.1 rfl
    by_cases hunion : op = .union
    · subst hunion
      have hinner : ∀ {q : Page}, q.Holds s Ready →
          (writeUnion true (e :: es) q).Holds (s ++ spellAll (.mark .bar) (e :: es)) Done := by
        intro q hq
        have he := Holds.indentedIfSpaced Holds.indentLess_done
          (fun hq => holds_write e (hparts e (by simp)) (hwo e (by simp)) hq)
            hq.verticalSpacing_ready
        have := holds_writeUnion es (fun f hf => hparts f (by simp [hf]))
            (fun f hf => hwo f (by simp [hf])) he
        simpa [writeUnion, spellAll_eq_flatMap] using this
      simpa [write, spell, BinaryOp.kind] using Holds.spaced _ _ hinner h
    · have := holds_writeSeparated (fun hq => hq.operator hop) (e :: es) (by simp) hparts hwo h
      have hwrite : (chain op (e :: es) ‹_›).write p = writeSeparated op.separator (e :: es) p := by
        cases op <;> first | exact absurd rfl hunion | rfl
      have hseparator : op.separator = op.text := by cases op <;> first | exact absurd rfl hop | rfl
      rw [hwrite, hseparator]
      exact this
  | unary op operand _, ha, hw, h => by
    have := holds_write operand (admissible_unary.1 ha).2 (fun x hx => hw x (by simp [spell, hx]))
      (h.unary op)
    simpa [write, spell] using this
termination_by e => sizeOf e

theorem holds_writeSeparated {p : Page} {s : List Symbol} {text : String} {separator : Symbol}
    (hseparator : ∀ {q : Page} {s : List Symbol}, q.Holds s Done →
      (q.append text).Holds (s ++ [separator]) Ready) : (es : List Expr) → es ≠ [] →
    (∀ e ∈ es, e.Admissible) → (∀ e ∈ es, e.Writable) → p.Holds s Ready →
    (writeSeparated text es p).Holds (s ++ spellAll separator es) Done
  | [], hn, _, _, _ => absurd rfl hn
  | [e], _, ha, hw, h => holds_write e (ha e (by simp)) (hw e (by simp)) h
  | e :: f :: es, _, ha, hw, h => by
    have he := holds_write e (ha e (by simp)) (hw e (by simp)) h
    have := holds_writeSeparated hseparator (f :: es) (by simp) (fun g hg => ha g (by simp [hg]))
      (fun g hg => hw g (by simp [hg])) (hseparator he)
    simpa [writeSeparated, spellAll] using this
termination_by es => sizeOf es

theorem holds_writeItems {p : Page} {s : List Symbol} : (es : List Expr) →
    (∀ e ∈ es, e.Admissible) → (∀ e ∈ es, e.Writable) → p.Holds s Ready →
    (writeItems es p).Holds (s ++ spellAll (.mark .comma) es) Settled
  | [], _, _, h => by simpa [writeItems, spellAll] using h.verticalSpacing_ready.settled_of_ready
  | [e], ha, hw, h =>
    (holds_write e (ha e (by simp)) (hw e (by simp)) h).settled_of_done.verticalSpacing
  | e :: f :: es, ha, hw, h => by
    have he := holds_write e (ha e (by simp)) (hw e (by simp)) h
    have := holds_writeItems (f :: es) (fun g hg => ha g (by simp [hg]))
      (fun g hg => hw g (by simp [hg])) he.settled_of_done.comma.verticalSpacing_ready
    simpa [writeItems, spellAll] using this
termination_by es => sizeOf es

/-- The operands of a union behind the first. -/
theorem holds_writeUnion {p : Page} {s : List Symbol} : (es : List Expr) →
    (∀ e ∈ es, e.Admissible) → (∀ e ∈ es, e.Writable) → p.Holds s Done →
    (writeUnion false es p).Holds (s ++ es.flatMap fun e => .mark .bar :: e.spell) Done
  | [], _, _, h => by simpa [writeUnion] using h
  | e :: es, ha, hw, h => by
    have he := Holds.indentedIfSpaced Holds.indentLess_done
      (fun hq => holds_write e (ha e (by simp)) (hw e (by simp)) hq.bar)
      h.settled_of_done.verticalSpacing
    have :=
      holds_writeUnion es (fun g hg => ha g (by simp [hg])) (fun g hg => hw g (by simp [hg])) he
    simpa [writeUnion] using this
termination_by es => sizeOf es

end

end Expr

end DocExpr
