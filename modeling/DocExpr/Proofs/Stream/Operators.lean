import DocExpr.Proofs.Documentation
import DocExpr.Proofs.Stream.Placement

/-!
# Every document operator has its block

Attaching documentation puts a document operator behind each leading block and before each trailing
one, and nowhere else. Two blocks can share the operator between them only if the second one is on
the line of the first (`Glyph.Gives.shared`), and as comments go on to the end of their line, this
takes a carriage return that ends the one and starts no line (`Glyph.Scans.breaks_pos`). So in a
text without any there are as many operators as blocks (`Stream.neighbours_attachDocumentation`), as
long as the lines can be counted in 32 bits (`Stream.count_document_ne`).
-/

namespace DocExpr

open Lexeme Documentation

/-- What is read behind a comment ends its line. -/
theorem Lexeme.endsLine_of_comment {c : Char} {w rest : List Char}
    (h : Lexeme.read c (w ++ rest) = ⟨.comment, w.length⟩) : ∀ d ∈ rest.head?, endsLine d := by
  have hlength : lineLength (w ++ rest) = w.length := by
    rcases read_cases c (w ++ rest) with
      ⟨_, _, hr⟩ | ⟨_, hk⟩ | ⟨_, hk⟩ | ⟨_, hk⟩ | ⟨_, hk⟩ | ⟨-, hr⟩ | ⟨-, hr⟩
    case inr.inr.inr.inr.inr.inr => exact congrArg more (hr.symm.trans h)
    case inl | inr.inr.inr.inr.inr.inl => rw [hr] at h; cases h
    all_goals rw [h] at hk; cases hk
  intro d hd
  obtain ⟨rest, rfl⟩ := List.head?_eq_some_iff.1 hd
  by_contra hends
  rw [lineLength, List.takeWhile_append_of_pos (forall_of_length_takeWhile _ hlength),
    List.takeWhile_cons_of_pos (by simpa using hends), List.length_append,
    List.length_cons] at hlength
  omega

/-- What tokens of a kind count for when document operators are set off against blocks of
comments. -/
def Kind.weight : Kind → Int
  | .document => 1
  | .block .leading | .block .trailing => -1
  | _ => 0

@[simp] theorem Kind.weight_document : Kind.document.weight = 1 := rfl

@[simp] theorem Kind.weight_leading : (Kind.block .leading).weight = -1 := rfl

@[simp] theorem Kind.weight_trailing : (Kind.block .trailing).weight = -1 := rfl

theorem Kind.weight_eq_zero {k : Kind} (h : (∀ b, k ≠ .block b) ∧ k ≠ .document) :
    k.weight = 0 := by
  unfold weight
  split <;> simp_all

namespace Glyph

variable {before gs : List Glyph} {groups : List (List Glyph)} {held : Option Token}
  {ts : List Token}

/-- What is behind a comment is on another line, if no line ends in a carriage return. -/
theorem Scans.breaks_pos {cs : List Char} (h : Scans cs gs) (hcs : '\r' ∉ cs) :
    gs.IsChain fun g h => g.kind = .comment → 0 < h.breaks := by
  induction h with
  | done => exact .nil
  | @next gap k c w rest gs hgap hc hread hrest ih =>
    have htail := ih fun hr => hcs (by simp [hr])
    cases hrest with
    | done => exact .singleton _
    | @next gap' k' c' w' rest' gs' hgap' hc' hread' hrest' =>
      refine List.isChain_cons_cons.2 ⟨?_, htail⟩
      rintro (rfl : k = .comment)
      have hends := endsLine_of_comment hread
      cases gap' with
      | nil =>
        have hspace : isSpace c' = false := hc'
        have hend : endsLine c' := hends c' rfl
        simp only [endsLine, Bool.or_eq_true, beq_iff_eq] at hend
        rcases hend with rfl | rfl <;> cases hspace
      | cons d gap' =>
        have hend : endsLine d := hends d rfl
        simp only [endsLine, Bool.or_eq_true, beq_iff_eq] at hend
        rcases hend with rfl | rfl
        · exact absurd (by simp) hcs
        · simp [breaks]

/-! ## Counting -/

/-- How many more document operators than blocks of comments there are. -/
def excess : List Token → Int
  | [] => 0
  | t :: ts => t.kind.weight + excess ts

@[simp] theorem excess_nil : excess [] = 0 := rfl

@[simp] theorem excess_cons (t : Token) (ts : List Token) :
    excess (t :: ts) = t.kind.weight + excess ts := rfl

@[simp] theorem excess_append (ts us : List Token) : excess (ts ++ us) = excess ts + excess us := by
  induction ts with
  | nil => simp
  | cons t ts ih => simp [ih, Int.add_assoc]

theorem excess_eq_sub (ts : List Token) : excess ts = (ts.map Token.kind).count .document -
    ((ts.map Token.kind).count (.block .leading) +
      (ts.map Token.kind).count (.block .trailing)) := by
  induction ts with
  | nil => rfl
  | cons t ts ih =>
    have hweight : t.kind.weight = [t.kind].count .document -
        ([t.kind].count (.block .leading) + [t.kind].count (.block .trailing)) := by
      cases t.kind with
      | block b => cases b <;> rfl
      | _ => rfl
    have hcount : ∀ k, (t.kind :: ts.map Token.kind).count k =
        [t.kind].count k + (ts.map Token.kind).count k := by
      intro k
      rw [← List.count_append]
      rfl
    rw [excess_cons, ih, hweight, List.map_cons, hcount, hcount, hcount]
    omega

/-- What is given out has one operator for each block, if no block begins on the line on which
another one does: a leading block leaves its operator held back, and a trailing one that is held
back has left its operator before it. -/
theorem Gives.excess_eq (h : Gives held before groups ts)
    (hglyphs : ∀ g ∈ groups.flatten, (∀ b, g.kind ≠ .block b) ∧ g.kind ≠ .document)
    (hheld : ∀ t ∈ held, t.kind = .document → isComments before)
    (hlines : (before :: groups).IsChain fun before group =>
      isComments before → isComments group → isOnFirstLine before group = false) :
    excess ts = excess held.toList := by
  induction h with
  | done => rfl
  | @plain _ _ g _ _ o hk h ih =>
    rw [List.flatten_cons, List.forall_mem_append] at hglyphs
    have hg := hglyphs.1 g (by simp)
    have hrest := ih hglyphs.2 (by simp [hg.2]) (List.isChain_cons_cons.1 hlines).2
    simp [hrest, Kind.weight_eq_zero hg]
  | leading o hblock hline h ih =>
    rw [List.flatten_cons, List.forall_mem_append] at hglyphs
    have hrest := ih hglyphs.2 (by simp [hblock]) (List.isChain_cons_cons.1 hlines).2
    simp [hrest, Token.document]
  | swapped o hblock hline hheld' h ih =>
    rw [List.flatten_cons, List.forall_mem_append] at hglyphs
    have hrest := ih hglyphs.2 (fun _ _ _ => hblock) (List.isChain_cons_cons.1 hlines).2
    simp only [excess_cons, hrest, Token.document, Kind.weight_document, Kind.weight_trailing]
    omega
  | trailing o hblock hline hheld' hdocument h ih =>
    rw [List.flatten_cons, List.forall_mem_append] at hglyphs
    have hrest := ih hglyphs.2 (by simp) (List.isChain_cons_cons.1 hlines).2
    simp [hrest, Token.document]
  | shared o hblock hline hdocument h ih =>
    -- an operator that is held back belongs to a block, and the next block is on another line
    rw [(List.isChain_cons_cons.1 hlines).1 (hheld _ rfl hdocument) hblock] at hline
    cases hline

/-- In a text without carriage returns no block of comments begins on the line on which another one
does. -/
theorem Scans.isChain_lines {cs : List Char} (h : Scans cs gs) (hcs : '\r' ∉ cs)
    (hsize : cs.count '\n' < UInt32.size) : ([] :: grouped gs).IsChain fun before group =>
      isComments before → isComments group → isOnFirstLine before group = false := by
  rw [List.isChain_iff_forall_rel_of_append_cons_cons]
  intro before group front behind hgroups hbefore hgroup
  obtain ⟨init, g, rfl⟩ :=
    (List.eq_nil_or_concat' before).resolve_left (ne_nil_of_isComments hbefore)
  obtain ⟨k, others, rfl⟩ := List.exists_cons_of_ne_nil (ne_nil_of_isComments hgroup)
  have hcomment : g.kind = .comment := by
    have hmem : init ++ [g] ∈ grouped gs := by
      have : init ++ [g] ∈ [] :: grouped gs := by simp [hgroups]
      simpa using this
    exact kind_of_isComments (List.isChain_of_mem_splitBy hmem) hbefore g (by simp)
  have hgs : gs = front.flatten ++ init ++ g :: k :: (others ++ behind.flatten) := by
    simpa using eq_append_of_grouped hgroups
  have hbreaks : 0 < k.breaks :=
    List.isChain_iff_forall_rel_of_append_cons_cons.1 (h.breaks_pos hcs) hgs hcomment
  rw [Bool.eq_false_iff]
  intro hline
  have hlast :=
    ((isOnFirstLine_iff fun d hd => (count_spread_le h hgroups hd).trans_lt hsize).1 hline).1
  simp [isOnLastLine, hbreaks.ne'] at hlast

/-- Of two comments the second of which has the line number of the first, though it is on another
line, the second one is trailing documentation and shares the operator of the first. -/
theorem kinds_of_far {g h : Glyph} (hk : g.kind = .comment ∧ h.kind = .comment)
    (hline : '\n' ∉ g.text) (hfar : UInt32.ofNat h.breaks = 0)
    (hgives : Gives none [] (grouped [g, h]) ts) :
    ts.map Token.kind = [.block .leading, .document, .block .trailing] := by
  have happart : continues g h = false := by simp [continues, isBelow_eq, hfar]
  have hgroups : grouped [g, h] = [[g], [h]] := by
    simp [grouped, List.splitBy, List.splitBy.loop, happart]
  have hfirst : isOnFirstLine [g] [h] := by
    simp [isOnFirstLine, hk.1, spread, List.count_eq_zero.2 hline, hfar]
  rw [hgroups] at hgives
  cases hgives with
  | plain o hplain _ => exact absurd hk.1 hplain
  | leading o hblock hapart hgives =>
    cases hgives with
    | plain o hplain _ => exact absurd hk.2 hplain
    | leading o hblock hapart _ => rw [hfirst] at hapart; cases hapart
    | swapped o hblock _ hheld _ => cases hheld
    | trailing o hblock _ hheld hdocument _ => exact absurd rfl hdocument
    | shared o hblock _ hheld hgives => cases hgives; rfl

end Glyph

namespace Stream

/-- Where documentation is attached, the document operator stands behind every leading block, before
every trailing one and nowhere else. If there are no carriage returns, and not too many lines for 32
bits, there is one operator for each block. -/
theorem neighbours_attachDocumentation (text file : String) :
    let ks := (ofText text file).attachDocumentation.tokens.map Token.kind
    Neighbours Kind.Joined none ks none ∧
      ('\r' ∉ text.toList → text.toList.count '\n' < UInt32.size →
        ks.count .document = ks.count (.block .leading) + ks.count (.block .trailing)) := by
  obtain ⟨gs, hgs⟩ := Glyph.exists_scans text.toList
  refine ⟨Kind.neighbours_joined
    (documented_attachDocumentation (hgs.isDocumentary_ofText file)) none none,
    fun hcs hsize => ?_⟩
  have hexcess := (hgs.gives file).excess_eq ?_ (by simp) (hgs.isChain_lines hcs hsize)
  · rw [Glyph.excess_eq_sub, Option.toList_none, Glyph.excess_nil] at hexcess
    omega
  · intro g hg
    rw [Glyph.grouped, List.flatten_splitBy] at hg
    exact (hgs.kind_ne hg).2

/-- Leading documentation, and trailing documentation that changes places with a comma and that does
not. -/
theorem neighbours_attachDocumentation_swapped :
    let ks := (ofText "// a\nx, // b\ny // c" "").attachDocumentation.tokens.map Token.kind
    ks.count .document = 3 ∧ ks.count (.block .leading) + ks.count (.block .trailing) = 3 := by
  intro ks
  have hcount : ks.count .document = 3 := by decide +kernel
  have hsame := (neighbours_attachDocumentation "// a\nx, // b\ny // c" "").2 (by decide +kernel)
    (by decide +kernel)
  exact ⟨hcount, hsame ▸ hcount⟩

/-- In a text with so many line feeds between two comments that the second one has the line number
of the first, the two share an operator. -/
theorem kinds_attachDocumentation_far {n : Nat} (hn : 0 < n) (hfar : UInt32.ofNat n = 0)
    (file : String) :
    (ofText ("// a" ++ String.ofList (List.replicate n '\n') ++ "// b") file
      ).attachDocumentation.tokens.map Token.kind =
        [.block .leading, .document, .block .trailing] := by
  obtain ⟨n, rfl⟩ := Nat.exists_eq_succ_of_ne_zero hn.ne'
  let g : Glyph := ⟨[], .comment, "// a".toList⟩
  let h : Glyph := ⟨List.replicate (n + 1) '\n', .comment, "// b".toList⟩
  have hsecond : Glyph.Scans (h.gap ++ ('/' :: "/ b".toList ++ [])) [h] :=
    .next (by simp [h, isSpace]) rfl rfl (.done (by simp))
  have hscan : Glyph.Scans ([] ++ ('/' :: "/ a".toList ++ (h.gap ++ ('/' :: "/ b".toList ++ []))))
      [g, h] := .next (by simp) rfl rfl hsecond
  have htext : ("// a" ++ String.ofList h.gap ++ "// b").toList =
      [] ++ ('/' :: "/ a".toList ++ (h.gap ++ ('/' :: "/ b".toList ++ []))) := by simp
  rw [← htext] at hscan
  exact Glyph.kinds_of_far ⟨rfl, rfl⟩ (by decide) (by simpa [h, Glyph.breaks] using hfar)
    (hscan.gives file)

/-- Without carriage returns, but with too many lines for 32 bits, there can be fewer operators than
blocks. -/
theorem count_document_ne :
    let text := "// a" ++ String.ofList (List.replicate UInt32.size '\n') ++ "// b"
    let ks := (ofText text "").attachDocumentation.tokens.map Token.kind
    '\r' ∉ text.toList ∧
      ks.count .document ≠ ks.count (.block .leading) + ks.count (.block .trailing) := by
  intro text ks
  have hks : ks = [.block .leading, .document, .block .trailing] :=
    kinds_attachDocumentation_far (by decide) (by decide) ""
  refine ⟨by simp [text, List.mem_replicate], ?_⟩
  rw [hks]
  decide

end Stream

end DocExpr
