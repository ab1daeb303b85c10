import DocExpr.Proofs.Lexing.Symbols
import DocExpr.Proofs.Stream.Grouped

/-!
# Texts taken apart at their comments

`Glyph.grouped` takes a text apart into its blocks of comments and everything else, one by one.
Comments stay together if each is directly below the one before it, which can be told from the gaps.
As no comment has a line feed in it, the tokens of a block are then lines of one run, so a block is
read as one token (`Glyph.merge_group`), and it is known how many lines below the begin of a block
its end is.
-/

namespace DocExpr

open Documentation

namespace Glyph

/-- The number of line breaks before a glyph. -/
def breaks (g : Glyph) : Nat := g.gap.count '\n'

theorem isBelow_eq (g : Glyph) : g.isBelow = decide (UInt32.ofNat g.breaks = 1) := rfl

/-- Whether a glyph is a comment directly below another one. -/
def continues (g h : Glyph) : Bool := g.kind = .comment && h.kind = .comment && h.isBelow

/-- Glyphs taken apart into the blocks of comments and everything else, one by one. -/
def grouped (gs : List Glyph) : List (List Glyph) := gs.splitBy continues

/-- Whether a group of glyphs is a block of comments. -/
def isComments (group : List Glyph) : Bool := group.head?.any (·.kind = .comment)

/-- Whether groups are blocks of comments that are apart, and everything else one by one. -/
inductive Groups : List (List Glyph) → Prop where
  | nil : Groups []
  | plain {g : Glyph} {groups : List (List Glyph)} (hk : g.kind ≠ .comment) (h : Groups groups) :
    Groups ([g] :: groups)
  | block {group : List Glyph} {groups : List (List Glyph)} (hblock : isComments group)
    (hchain : group.IsChain (continues · ·))
    (happart : ∀ g ∈ group.getLast?, ∀ h ∈ groups.flatten.head?, continues g h = false)
    (h : Groups groups) :
    Groups (group :: groups)

/-- The text of glyphs, without the space before the first. -/
def spread : List Glyph → List Char
  | [] => []
  | g :: gs => g.text ++ laid gs

/-- The text of a block of comments. -/
def blockText (block : List Glyph) : String :=
  "\n".intercalate (block.map fun g => String.ofList g.text)

variable {file : String} {p : Position} {g h : Glyph} {gs before group : List Glyph}
  {groups : List (List Glyph)}

theorem continues_iff : continues g h ↔ (g.kind = .comment ∧ h.kind = .comment) ∧ h.isBelow := by
  simp [continues]

/-- All glyphs of a block of comments are comments. -/
theorem kind_of_isComments (hgroup : group.IsChain (continues · ·)) (h : isComments group) :
    ∀ g ∈ group, g.kind = .comment := by
  cases group with
  | nil => cases h
  | cons c cs =>
    exact hgroup.induction (·.kind = .comment) _
      (fun _ _ hr _ => (continues_iff.1 hr).1.2) fun _ => by
        simpa [isComments] using h

theorem ne_nil_of_isComments (h : isComments group) : group ≠ [] := by
  rintro rfl
  cases h

/-- No block of comments ends in a bar. -/
theorem any_getLast?_of_isComments (hgroup : group.IsChain (continues · ·)) (h : isComments group) :
    group.getLast?.any (·.kind != .mark .bar) := by
  have hne := ne_nil_of_isComments h
  rw [List.getLast?_eq_some_getLast hne]
  simp [kind_of_isComments hgroup h _ (List.getLast_mem hne)]

theorem groups_grouped (gs : List Glyph) : Groups (grouped gs) := by
  have hn := List.nil_notMem_splitBy continues gs
  have hchain : ∀ group ∈ gs.splitBy continues, group.IsChain (continues · ·) := fun _ =>
    List.isChain_of_mem_splitBy
  have hends := List.isChain_getLast_head_splitBy continues gs
  rw [grouped]
  generalize gs.splitBy continues = groups at *
  induction groups with
  | nil => exact .nil
  | cons group groups ih =>
    rw [List.mem_cons, not_or] at hn
    obtain ⟨hgroup, hchain⟩ := List.forall_mem_cons.1 hchain
    have hgroups := ih hn.2 hchain hends.tail
    obtain ⟨c, cs, rfl⟩ := List.exists_cons_of_ne_nil (Ne.symm hn.1)
    by_cases hk : c.kind = .comment
    · refine .block (by simpa [isComments] using hk) hgroup (fun g hg h hh => ?_) hgroups
      cases groups with
      | nil => cases hh
      | cons next groups =>
        obtain ⟨_, hne, happart⟩ := (List.isChain_cons_cons.1 hends).1
        obtain ⟨d, ds, rfl⟩ := List.exists_cons_of_ne_nil hne
        rw [List.getLast?_eq_some_getLast (List.cons_ne_nil _ _)] at hg
        cases hg
        cases hh
        exact happart
    · cases cs with
      | nil => exact .plain hk hgroups
      | cons d cs => exact absurd (continues_iff.1 (List.isChain_cons_cons.1 hgroup).1).1.1 hk

/-! ## Lines of tokens -/

/-- The line of a place behind a gap. -/
theorem line_behind_gap (p : Position) (g : Glyph) :
    (p.behind g.gap).line = p.line + .ofNat g.breaks :=
  line_behind p g.gap

/-- A lexeme without a line break leaves the line. -/
theorem line_behind_text (p : Position) {text : List Char} (h : '\n' ∉ text) :
    (p.behind text).line = p.line := by
  rw [line_behind, List.count_eq_zero.2 h]
  simp

/-- Tokens are lines of one block as their glyphs are, if no comment has a line feed in it. -/
theorem joins_placed {t u : Token} (hg : g.kind = .comment → '\n' ∉ g.text)
    (h' : placed file p [g, h] = [t, u]) :
    commentRuns.joins t u = continues g h := by
  obtain ⟨rfl, rfl⟩ : _ ∧ _ := by simpa [placed] using h'
  by_cases hk : g.kind = .comment
  · have hline : (((p.behind g.gap).behind g.text).behind h.gap).line = (p.behind g.gap).line + 1 ↔
        h.isBelow := by
      rw [line_behind_gap, line_behind_text _ (hg hk), UInt32.add_right_inj, isBelow_eq,
        decide_eq_true_eq]
    rw [Bool.eq_iff_iff, RunForm.joins_iff, continues_iff]
    exact and_congr Iff.rfl hline
  · simp [RunForm.joins, continues, commentRuns, hk]

theorem isChain_placed (hgs : ∀ g ∈ gs, g.kind = .comment → '\n' ∉ g.text)
    (h : gs.IsChain (continues · ·)) :
    (placed file p gs).IsChain (commentRuns.joins · ·) := by
  induction gs generalizing p with
  | nil => exact .nil
  | cons g gs ih =>
    obtain ⟨hg, hgs⟩ := List.forall_mem_cons.1 hgs
    cases gs with
    | nil => exact .singleton _
    | cons h gs =>
      obtain ⟨hcontinues, hchain⟩ := List.isChain_cons_cons.1 ‹_›
      exact List.isChain_cons_cons.2 ⟨(joins_placed hg rfl).trans hcontinues, ih hgs hchain⟩

/-- Groups that are apart are apart as tokens. -/
theorem joins_getLast_placed {t u : Token} (hgs : ∀ g ∈ group, g.kind = .comment → '\n' ∉ g.text)
    (happart : ∀ g ∈ group.getLast?, ∀ h ∈ gs.head?, continues g h = false)
    (ht : t ∈ (placed file p group).getLast?)
    (hu : u ∈ (placed file (p.behind (laid group)) gs).head?) :
    commentRuns.joins t u = false := by
  obtain rfl | ⟨front, g, rfl⟩ := List.eq_nil_or_concat' group
  · cases ht
  cases gs with
  | nil => cases hu
  | cons h gs =>
    refine (joins_placed (hgs g (by simp))
      (?_ : placed file (p.behind (laid front)) [g, h] = [t, u])).trans
      (happart g (by simp) h rfl)
    rw [placed_append] at ht
    simp only [placed, List.getLast?_append, List.getLast?_singleton, Option.some_or,
      Option.mem_some_iff, List.head?_cons] at ht hu
    subst ht hu
    simp [placed, behind_append]

/-- The line on which glyphs end, by the line on which they begin. -/
theorem line_behind_laid (p : Position) (g : Glyph) (gs : List Glyph) :
    (p.behind (laid (g :: gs))).line =
    p.line + .ofNat g.breaks + .ofNat ((spread (g :: gs)).count '\n') := by
  rw [laid_cons, behind_append, line_behind, line_behind_gap]
  rfl

/-- A block of comments is read as one token. -/
theorem merge_group (finish : Reading) {rs : List Reading} (hchain : group.IsChain (continues · ·))
    (hblock : isComments group) (hgs : ∀ g ∈ group, g.kind = .comment → '\n' ∉ g.text)
    (happart : ∀ g ∈ group.getLast?, ∀ h ∈ gs.head?, continues g h = false)
    (hrs : rs.map Reading.token = placed file p (group ++ gs)) :
    ∃ r rs', Runs.merge commentRuns finish none rs = r :: Runs.merge commentRuns finish none rs' ∧
      rs'.map Reading.token = placed file (p.behind (laid group)) gs ∧
      r.token = ⟨.block .leading, blockText group, r.token.origin⟩ ∧
      (∀ g ∈ group.head?, r.token.origin.line = p.line + .ofNat g.breaks) ∧
      (p.behind (laid group)).line = r.token.origin.line + .ofNat ((spread group).count '\n') := by
  obtain ⟨g, others, rfl⟩ := List.exists_cons_of_ne_nil (ne_nil_of_isComments hblock)
  have hk : g.kind = .comment := by simpa [isComments] using hblock
  rw [placed_append] at hrs
  obtain ⟨front, rest, rfl, hfront, hrest⟩ := List.map_eq_append_iff.1 hrs
  obtain ⟨r, rs', hmerge, hrs', hr⟩ := Runs.exists_merge_append finish hk hfront
    (isChain_placed hgs hchain) fun u (hu : u ∈ (rest.map Reading.token).head?) =>
      joins_getLast_placed hgs happart (List.getLast?_eq_some_getLast (List.cons_ne_nil _ _))
        (hrest ▸ hu)
  replace hk : g.kind = commentRuns.line := hk
  rw [RunForm.whole] at hr
  simp only [hk, if_true, List.singleton_inj] at hr
  have hline : r.token.origin.line = p.line + .ofNat g.breaks := by rw [hr, line_behind_gap]
  refine ⟨r, rs', hmerge, hrs'.trans hrest,
    ?_, by simpa using hline, by rw [line_behind_laid, hline]⟩
  rw [hr, blockText, ← map_text_placed file p (g :: others)]
  rfl

theorem Scans.laid_prefix {cs : List Char} (h : Scans cs gs) : laid gs <+: cs := by
  induction h with
  | done => exact List.nil_prefix
  | next hgap hc hread hrest ih =>
    rw [laid_cons]
    exact (List.prefix_append_right_inj _).2 ((List.prefix_append_right_inj _).2 ih)

theorem eq_append_of_grouped {front behind : List (List Glyph)}
    (h : [] :: grouped gs = front ++ before :: group :: behind) :
    gs = front.flatten ++ (before ++ (group ++ behind.flatten)) := by
  have hflatten := congrArg List.flatten h
  rwa [List.flatten_cons, List.nil_append, grouped, List.flatten_splitBy, List.flatten_append,
    List.flatten_cons,
    List.flatten_cons] at hflatten

/-- Between the begin of a group and that of the next there are no more lines than in the whole
text. -/
theorem count_spread_le {cs : List Char} {front behind : List (List Glyph)} (h : Scans cs gs)
    (hgroups : [] :: grouped gs = front ++ before :: group :: behind) (hg : g ∈ group.head?) :
    (spread before).count '\n' + g.breaks ≤ cs.count '\n' := by
  have hbefore : (spread before).count '\n' ≤ (laid before).count '\n' := by
    cases before with
    | nil => simp [spread]
    | cons b bs => simp [spread]
  have hgroup : g.breaks ≤ (laid group).count '\n' := by
    obtain ⟨gs, rfl⟩ := List.head?_eq_some_iff.1 hg
    simp [breaks]
  have hcs := h.laid_prefix.sublist.count_le '\n'
  rw [eq_append_of_grouped hgroups, laid_append, laid_append, laid_append, List.count_append,
    List.count_append, List.count_append] at hcs
  omega

end Glyph

end DocExpr
