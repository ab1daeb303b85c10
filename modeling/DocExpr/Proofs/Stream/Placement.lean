import DocExpr.Proofs.Stream.Blocks

/-!
# On which line documentation is trailing

Whether a block of comments is leading or trailing documentation is a question of lines.
`Glyph.Gives` says what a stream gives when documentation is attached, by what is held back and what
the groups before and behind it are. Places of tokens are no part of it: `Glyph.gives_attach` goes
along the groups with the one fact about places that matters, that each group begins as many lines
below what is held back as there are line feeds between.

So a block is trailing documentation if it begins on the line on which what is before it *begins*
(`Glyph.isOnFirstLine`, `Stream.documentation_attachDocumentation`). This is not the line on which
that ends if there is a line feed in it, as there can be in a quoted literal.
-/

namespace DocExpr

open Documentation

/-- What a token says as documentation, and of which form it is. -/
def Token.documentation? (t : Token) : Option (Block × String) :=
  match t.kind with
  | .block .leading => some (.leading, t.text)
  | .block .trailing => some (.trailing, t.text)
  | _ => none

@[simp] theorem Token.documentation?_leading (text : String) (o : Origin) :
    documentation? ⟨.block .leading, text, o⟩ = some (.leading, text) := rfl

@[simp] theorem Token.documentation?_trailing (text : String) (o : Origin) :
    documentation? ⟨.block .trailing, text, o⟩ = some (.trailing, text) := rfl

theorem Token.documentation?_eq_none {t : Token} (h : ∀ b, t.kind ≠ .block b) :
    t.documentation? = none := by
  unfold documentation?
  split
  · exact absurd ‹_› (h .leading)
  · exact absurd ‹_› (h .trailing)
  · rfl

namespace Glyph

/-- Whether a group begins on the line on which what is before it begins, if this is no bar. Lines
are counted in 32 bits. -/
def isOnFirstLine (before group : List Glyph) : Bool :=
  before.getLast?.any (·.kind != .mark .bar) &&
    group.head?.any fun g => UInt32.ofNat ((spread before).count '\n' + g.breaks) = 0

/-- Whether a group begins on the line on which what is before it ends, if this is no bar. -/
def isOnLastLine (before group : List Glyph) : Bool :=
  before.getLast?.any (·.kind != .mark .bar) && group.head?.any (·.breaks = 0)

/-- What the blocks of comments among groups are as documentation, if a rule says of each whether it
is trailing, by what is before it. -/
def documentation (rule : List Glyph → List Glyph → Bool) :
    List Glyph → List (List Glyph) → List (Block × String)
  | _, [] => []
  | before, group :: groups =>
    let rest := documentation rule group groups
    if isComments group then
      (if rule before group then .trailing else .leading, blockText group) :: rest
    else rest

/-- What is given out behind a token that is held back, if there is one, where groups of glyphs are
read behind what is before them. -/
inductive Gives : Option Token → List Glyph → List (List Glyph) → List Token → Prop where
  | done (held : Option Token) (before : List Glyph) : Gives held before [] held.toList
  /-- What is no comment is held back in the place of what was. -/
  | plain {held : Option Token} {before : List Glyph} {g : Glyph} {groups : List (List Glyph)}
    {ts : List Token} (o : Origin) (hk : g.kind ≠ .comment)
    (h : Gives (some ⟨g.kind, String.ofList g.text, o⟩) [g] groups ts) :
    Gives held before ([g] :: groups) (held.toList ++ ts)
  /-- A leading block is given out, and its operator is held back. -/
  | leading {held : Option Token} {before block : List Glyph} {groups : List (List Glyph)}
    {ts : List Token} (o : Origin) (hblock : isComments block)
    (hline : isOnFirstLine before block = false)
    (h : Gives (some (.document o)) block groups ts) :
    Gives held before (block :: groups) (held.toList ++ ⟨.block .leading, blockText block, o⟩ :: ts)
  /-- A trailing block goes before a separator, with its operator. -/
  | swapped {held : Token} {before block : List Glyph} {groups : List (List Glyph)}
    {ts : List Token} (o : Origin) (hblock : isComments block) (hline : isOnFirstLine before block)
    (hheld : isSeparator held)
    (h : Gives (some held) block groups ts) :
    Gives (some held) before (block :: groups)
      (.document o :: ⟨.block .trailing, blockText block, o⟩ :: ts)
  /-- A trailing block is held back, and its operator given out before it. -/
  | trailing {held : Token} {before block : List Glyph} {groups : List (List Glyph)}
    {ts : List Token} (o : Origin) (hblock : isComments block) (hline : isOnFirstLine before block)
    (hheld : isSeparator held = false)
    (hdocument : held.kind ≠ .document)
    (h : Gives (some ⟨.block .trailing, blockText block, o⟩) block groups ts) :
    Gives (some held) before (block :: groups) (held :: .document o :: ts)
  /-- A trailing block shares the operator of a leading one before it. -/
  | shared {held : Token} {before block : List Glyph} {groups : List (List Glyph)} {ts : List Token}
    (o : Origin) (hblock : isComments block) (hline : isOnFirstLine before block)
    (hheld : held.kind = .document)
    (h : Gives (some ⟨.block .trailing, blockText block, o⟩) block groups ts) :
    Gives (some held) before (block :: groups) (held :: ts)

variable {file : String} {p : Position} {g : Glyph} {gs before group : List Glyph}
  {groups : List (List Glyph)}
  {held : Option Token} {ts : List Token} {text : String}

/-! ## Attaching -/

/-- A block of comments is behind what is held back as its group is on the line of the group before
it. -/
theorem isBehind_eq {held block : Token} (hgroup : ∀ g ∈ group.head?, block.origin.line =
      held.origin.line + .ofNat ((spread before).count '\n') + .ofNat g.breaks) (hne : group ≠ [])
    (hbar : before.getLast?.any (·.kind != .mark .bar) = (held.kind != .mark .bar)) :
    isBehind held block = isOnFirstLine before group := by
  obtain ⟨g, gs, rfl⟩ := List.exists_cons_of_ne_nil hne
  have hline : (held.origin.line == block.origin.line) =
      decide (UInt32.ofNat ((spread before).count '\n' + g.breaks) = 0) := by
    rw [hgroup g rfl, UInt32.add_assoc, ← UInt32.ofNat_add, Bool.eq_iff_iff, beq_iff_eq,
      decide_eq_true_eq, UInt32.left_eq_add]
  rw [isBehind, isOnFirstLine, hbar, hline, Bool.and_comm]
  rfl

/-- Attaching documentation gives what groups say. What is held back stands for what is before the
groups: they begin as many lines below it as that has, and it is a bar if that ends in one. -/
theorem gives_attach (finish : Reading) (held : Token) (hgroups : Groups groups)
    (hglyphs : ∀ g ∈ groups.flatten, (g.kind = .comment → '\n' ∉ g.text) ∧ ∀ b, g.kind ≠ .block b)
    {rs : List Reading} (hrs : rs.map Reading.token = placed file p groups.flatten)
    (hline : p.line = held.origin.line + .ofNat ((spread before).count '\n'))
    (hbar : before.getLast?.any (·.kind != .mark .bar) = (held.kind != .mark .bar)) :
    Gives (some held) before groups
      ((attach held (Runs.merge commentRuns finish none rs)).map Reading.token) := by
  induction hgroups generalizing p held rs before with
  | nil =>
    obtain rfl : rs = [] := by simpa [placed] using hrs
    exact .done (some held) before
  | @plain g groups hk h ih =>
    rw [List.flatten_cons, List.forall_mem_append] at hglyphs
    obtain ⟨r, rs, rfl, hr, hrest⟩ := List.map_eq_cons_iff.1 hrs
    have hblock : ∀ b, r.token.kind ≠ .block b := by
      rw [hr]
      exact (hglyphs.1 g (by simp)).2
    have hmerge : Runs.merge commentRuns finish none (r :: rs) =
        r :: Runs.merge commentRuns finish none rs :=
      if_neg (by rw [hr]; exact hk)
    rw [hmerge, map_token_attach_cons held r _ (hblock .trailing), if_neg (hblock .leading)]
    refine .plain r.token.origin hk ?_
    rw [← show r.token = ⟨g.kind, String.ofList g.text, r.token.origin⟩ by rw [hr]]
    exact ih r.token hglyphs.2 hrest (by rw [hr, line_behind]; simp [spread]) (by rw [hr]; simp)
  | @block group groups hblock hchain happart h ih =>
    rw [List.flatten_cons, List.forall_mem_append] at hglyphs
    obtain ⟨r, rs', hmerge, hrs', hr, hfirst, hlast⟩ :=
      merge_group finish hchain hblock (fun g hg => (hglyphs.1 g hg).1) happart hrs
    have hk : r.token.kind = .block .leading := by rw [hr]
    have hbehind : isBehind held r.token = isOnFirstLine before group :=
      isBehind_eq (fun g hg => by rw [hfirst g hg, hline]) (ne_nil_of_isComments hblock) hbar
    have hcomment := any_getLast?_of_isComments hchain hblock
    have hrest : ∀ u : Token, u.origin.line = r.token.origin.line → u.kind ≠ .mark .bar →
        Gives (some u) group groups
          ((attach u (Runs.merge commentRuns finish none rs')).map Reading.token) := fun u hu hk =>
      ih u hglyphs.2 hrs' (by rw [hlast, hu]) (by simp [hcomment, hk])
    rw [hmerge, map_token_attach_cons held r _ (by simp [hk]), if_pos hk, hbehind]
    cases hfirstLine : isOnFirstLine before group with
    | false =>
      rw [if_neg Bool.false_ne_true, hr]
      exact .leading _ hblock hfirstLine (hrest _ rfl (by simp [Token.document]))
    | true =>
      obtain ⟨hsame, hnobar⟩ := Bool.and_eq_true_iff.1 (hbehind.trans hfirstLine)
      rw [if_pos rfl]
      by_cases hseparator : isSeparator held
      · -- the separator stays held back, on the line on which the block begins
        rw [if_pos hseparator, hr]
        exact .swapped _ hblock hfirstLine hseparator
          (hrest held (eq_of_beq hsame) (by simpa using hnobar))
      · rw [if_neg hseparator]
        by_cases hdocument : held.kind = .document
        · rw [if_pos hdocument, hr]
          exact .shared _ hblock hfirstLine hdocument (hrest _ rfl (by simp))
        · rw [if_neg hdocument, hr]
          exact .trailing _ hblock hfirstLine (by simpa using hseparator) hdocument
            (hrest _ rfl (by simp))

/-- What a stream of a text gives when documentation is attached. -/
theorem Scans.gives (h : Scans text.toList gs) (file : String) :
    Gives none [] (grouped gs) (Stream.ofText text file).attachDocumentation.tokens := by
  have hglyphs : ∀ g ∈ gs, (g.kind = .comment → '\n' ∉ g.text) ∧ ∀ b, g.kind ≠ .block b :=
    fun g hg =>
      ⟨fun hk => Lexeme.not_mem_of_comment (hk ▸ (h.isLexeme hg (by rw [hk]; rfl)).2),
        (h.kind_ne hg).2.1⟩
  have hrs : (Stream.ofText text file).readings.map Reading.token =
      placed file .start (grouped gs).flatten := by
    rw [grouped, List.flatten_splitBy]
    exact h.tokens_ofText file
  rw [← List.flatten_splitBy continues gs] at hglyphs
  change ∀ g ∈ (grouped gs).flatten, _ at hglyphs
  have hgroups := groups_grouped gs
  generalize Stream.ofText text file = s at hrs ⊢
  generalize grouped gs = groups at hgroups hglyphs hrs ⊢
  cases hgroups with
  | nil =>
    have hnil : s.readings = [] := by simpa [placed] using hrs
    rw [Stream.attachDocumentation, hnil]
    exact .done none []
  | @plain g groups hk hgroups =>
    rw [List.flatten_cons, List.forall_mem_append] at hglyphs
    obtain ⟨r, rs, hreadings, hr, hrest⟩ := List.map_eq_cons_iff.1 hrs
    have hkind : r.token.kind ≠ .comment := by rwa [hr]
    have hmerge : Runs.merge commentRuns s.lastReading none (r :: rs) =
        r :: Runs.merge commentRuns s.lastReading none rs := if_neg hkind
    have htoken : r.token = ⟨g.kind, String.ofList g.text, r.token.origin⟩ := by rw [hr]
    rw [Stream.attachDocumentation, hreadings, hmerge]
    simp only [List.head?_cons, Option.any_some, decide_eq_false hkind,
      Bool.false_eq_true, if_false]
    refine (.plain r.token.origin hk ?_ : Gives none [] ([g] :: groups) _)
    rw [← htoken]
    exact gives_attach s.lastReading r.token hgroups hglyphs.2 hrest
      (by rw [hr, line_behind]; simp [spread])
      (by rw [hr]; simp)
  | @block group groups hblock hchain happart hgroups =>
    rw [List.flatten_cons, List.forall_mem_append] at hglyphs
    obtain ⟨r, rs, hmerge, hrest, hr, -, hlast⟩ :=
      merge_group s.lastReading hchain hblock (fun g hg => (hglyphs.1 g hg).1) happart hrs
    have hfirst : s.readings.head?.any (fun r => r.token.kind = .comment) := by
      obtain ⟨g, others, rfl⟩ := List.exists_cons_of_ne_nil (ne_nil_of_isComments hblock)
      obtain ⟨r, rs, hreadings, hr, -⟩ := List.map_eq_cons_iff.1 hrs
      rw [hreadings]
      simpa [hr, isComments] using hblock
    rw [Stream.attachDocumentation, hmerge]
    simp only [hfirst, if_true]
    have hgives :=
      gives_attach s.lastReading (.document r.token.origin) hgroups hglyphs.2 hrest hlast
        (by rw [any_getLast?_of_isComments hchain hblock]; rfl)
    rw [Stream.tokens, List.map_append, map_token_inOrder, hr]
    exact .leading r.token.origin hblock rfl hgives

/-! ## Documentation -/

/-- What is given out is documentation by the lines on which blocks and what is before them
begin. -/
theorem Gives.documentation (h : Gives held before groups ts)
    (hglyphs : ∀ g ∈ groups.flatten, ∀ b, g.kind ≠ .block b) : ts.filterMap Token.documentation? =
      held.toList.filterMap Token.documentation? ++
        Glyph.documentation isOnFirstLine before groups := by
  have hnone : ∀ {t : Token}, t.kind = .document ∨ isSeparator t → t.documentation? = none :=
    fun ht => Token.documentation?_eq_none fun b hb => by simp [isSeparator, hb] at ht
  induction h with
  | done => simp [Glyph.documentation]
  | @plain _ _ g _ _ o hk h ih =>
    rw [List.flatten_cons, List.forall_mem_append] at hglyphs
    have hplain : (⟨g.kind, String.ofList g.text, o⟩ : Token).documentation? = none :=
      Token.documentation?_eq_none (hglyphs.1 g (by simp))
    simp [ih hglyphs.2, Glyph.documentation, isComments, hk, hplain]
  | leading o hblock hline h ih =>
    rw [List.flatten_cons, List.forall_mem_append] at hglyphs
    simp [ih hglyphs.2, Glyph.documentation, hblock, hline, hnone (t := .document o) (.inl rfl)]
  | swapped o hblock hline hheld h ih =>
    rw [List.flatten_cons, List.forall_mem_append] at hglyphs
    simp [ih hglyphs.2, Glyph.documentation, hblock, hline, hnone (t := .document o) (.inl rfl),
      hnone (.inr hheld)]
  | @trailing u _ _ _ _ o hblock hline hheld hdocument h ih =>
    rw [List.flatten_cons, List.forall_mem_append] at hglyphs
    cases hu : u.documentation? <;>
      simp [ih hglyphs.2, Glyph.documentation, hblock, hline,
        hnone (t := .document o) (.inl rfl), hu]
  | shared o hblock hline hheld h ih =>
    rw [List.flatten_cons, List.forall_mem_append] at hglyphs
    simp [ih hglyphs.2, Glyph.documentation, hblock, hline, hnone (.inl hheld)]

/-- Two rules say the same of all blocks of comments exactly if they say the same of each of
them. -/
theorem documentation_eq_iff {rule rule' : List Glyph → List Glyph → Bool} (before : List Glyph)
    (groups : List (List Glyph)) :
    documentation rule before groups = documentation rule' before groups ↔
      (before :: groups).IsChain fun before group => isComments group →
        rule before group = rule' before group := by
  induction groups generalizing before with
  | nil => simp [documentation]
  | cons group groups ih =>
    rw [List.isChain_cons_cons, ← ih group, documentation, documentation]
    by_cases hblock : isComments group
    · cases rule before group <;> cases rule' before group <;> simp [hblock]
    · simp [hblock]

/-- A group is on the first line of what is before it if it is on the last, and this is the same
line. There must not be too many lines for 32 bits. -/
theorem isOnFirstLine_iff
    (hsize : ∀ g ∈ group.head?, (spread before).count '\n' + g.breaks < UInt32.size) :
    isOnFirstLine before group ↔ isOnLastLine before group ∧ '\n' ∉ spread before := by
  rw [isOnFirstLine, isOnLastLine]
  cases hhead : group.head? with
  | none => simp
  | some g =>
    have hlines : UInt32.ofNat ((spread before).count '\n' + g.breaks) = 0 ↔
        g.breaks = 0 ∧ '\n' ∉ spread before := by
      rw [← UInt32.toNat_inj, UInt32.toNat_ofNat_of_lt' (hsize g hhead), UInt32.toNat_zero,
        Nat.add_eq_zero_iff, List.count_eq_zero, and_comm]
    simp only [Option.any_some, hlines, Bool.and_eq_true, decide_eq_true_eq, and_assoc]

end Glyph

namespace Stream

/-- Comments become documentation by the line on which what is before them begins. This is as if it
were the line on which that ends exactly if no block of comments is behind something with a line
feed in it, as long as there are not too many lines for 32 bits. -/
theorem documentation_attachDocumentation (text file : String) : ∃ gs, Glyph.Scans text.toList gs ∧
    (ofText text file).attachDocumentation.tokens.filterMap Token.documentation? =
      Glyph.documentation Glyph.isOnFirstLine [] (Glyph.grouped gs) ∧
    (text.toList.count '\n' < UInt32.size →
      ((ofText text file).attachDocumentation.tokens.filterMap Token.documentation? =
          Glyph.documentation Glyph.isOnLastLine [] (Glyph.grouped gs) ↔
        ([] :: Glyph.grouped gs).IsChain fun before group => Glyph.isComments group →
          Glyph.isOnLastLine before group → '\n' ∉ Glyph.spread before)) := by
  obtain ⟨gs, hgs⟩ := Glyph.exists_scans text.toList
  have hdocs : (ofText text file).attachDocumentation.tokens.filterMap Token.documentation? =
      Glyph.documentation Glyph.isOnFirstLine [] (Glyph.grouped gs) := by
    refine (hgs.gives file).documentation fun g hg => (hgs.kind_ne ?_).2.1
    rwa [Glyph.grouped, List.flatten_splitBy] at hg
  refine ⟨gs, hgs, hdocs, fun hsize => ?_⟩
  rw [hdocs, Glyph.documentation_eq_iff, List.isChain_iff_forall_rel_of_append_cons_cons,
    List.isChain_iff_forall_rel_of_append_cons_cons]
  refine forall₅_congr fun before group front behind hgroups => imp_congr_right fun _ => ?_
  rw [Bool.eq_iff_iff,
    Glyph.isOnFirstLine_iff fun g hg => (Glyph.count_spread_le hgs hgroups hg).trans_lt hsize,
    and_iff_left_iff_imp]

/-- A comment behind a name on one line. -/
theorem documentation_attachDocumentation_name : "a // b".toList.count '\n' < UInt32.size ∧
    ∃ gs, Glyph.Scans "a // b".toList gs ∧
      (ofText "a // b" "").attachDocumentation.tokens.filterMap Token.documentation? =
        Glyph.documentation Glyph.isOnLastLine [] (Glyph.grouped gs) := by
  have hcomment : Glyph.Scans ([' '] ++ ('/' :: "/ b".toList ++ []))
      [⟨[' '], .comment, '/' :: "/ b".toList⟩] :=
    .next (by decide) rfl rfl (.done (by simp))
  have hname : Glyph.Scans ([] ++ ('a' :: [] ++ " // b".toList)) _ :=
    .next (by simp) rfl rfl hcomment
  have hsize : "a // b".toList.count '\n' < UInt32.size := by decide +kernel
  obtain ⟨gs, hgs, -, hiff⟩ := documentation_attachDocumentation "a // b" ""
  obtain rfl := hgs.unique hname
  exact ⟨hsize, _, hgs, (hiff hsize).2 (by decide +kernel)⟩

/-- A comment behind a string with an escaped line feed is on the line on which the string ends, and
yet leading documentation. -/
theorem documentation_escaped_line_feed :
    let gs : List Glyph :=
      [⟨[], .atom .string, "\"a\\\nb\"".toList⟩, ⟨[' '], .comment, "// c".toList⟩]
    Glyph.Scans "\"a\\\nb\" // c".toList gs ∧ '\r' ∉ "\"a\\\nb\" // c".toList ∧
      Glyph.documentation Glyph.isOnLastLine [] (Glyph.grouped gs) = [(.trailing, "// c")] ∧
      (ofText "\"a\\\nb\" // c" "").attachDocumentation.tokens.filterMap Token.documentation? =
        [(.leading, "// c")] := by
  have hcomment : Glyph.Scans ([' '] ++ ('/' :: "/ c".toList ++ []))
      [⟨[' '], .comment, '/' :: "/ c".toList⟩] :=
    .next (by decide) rfl rfl (.done (by simp))
  have hstring : Glyph.Scans ([] ++ ('\x22' :: "a\\\nb\"".toList ++ " // c".toList)) _ :=
    .next (by simp) rfl rfl hcomment
  exact ⟨hstring, by decide +kernel, by decide +kernel, by decide +kernel⟩

end Stream

end DocExpr
