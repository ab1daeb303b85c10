import DocExpr.Proofs.Documentation
import DocExpr.Proofs.Layout.Groupings

/-!
# The spacing of a tree by its nodes

It does not matter where in a tree a node is that asks for blank lines
(`Expr.spacing_eq_blankLines`), nor where one is that asks for lines at all
(`Expr.spacing_eq_inline`).
-/

namespace DocExpr

namespace Expr

variable {e : Expr} {es : List Expr}

/-- Whether a node puts documentation above something. -/
def isHeaded : Expr → Bool
  | chain .document operands _ => operands.head?.any isLeading
  | _ => false

/-- Whether a node attaches documentation or has more than two parts. -/
def Spread (e : Expr) : Prop := e.isChainOf .document ∨ 2 < e.children.length

instance (e : Expr) : Decidable e.Spread := inferInstanceAs (Decidable (_ ∨ _))

theorem Spread.of_isHeaded (h : e.isHeaded) : e.Spread := by
  cases e with
  | chain op operands o => cases op <;> first | exact .inl rfl | cases h
  | _ => cases h

theorem ownSpacing_eq (e : Expr) :
    e.ownSpacing = if e.isHeaded then .blankLines else if e.Spread then .lines else .inline := by
  cases e with
  | chain op operands o => cases op <;> simp [ownSpacing, isHeaded, Spread, isChainOf]
  | _ => simp [ownSpacing, isHeaded, Spread, isChainOf]

theorem ownSpacing_eq_blankLines : e.ownSpacing = .blankLines ↔ e.isHeaded := by
  rw [ownSpacing_eq]
  split
  · simp_all
  · split <;> simp_all

theorem ownSpacing_eq_inline : e.ownSpacing = .inline ↔ ¬e.Spread := by
  rw [ownSpacing_eq]
  split
  · next h => simp [Spread.of_isHeaded h]
  · split <;> simp_all

theorem spacingAll_eq_blankLines : spacingAll es = .blankLines ↔
    ∃ e ∈ es, e.spacing = .blankLines := by
  induction es with
  | nil => simp [spacingAll]
  | cons e es ih => rw [spacingAll, Spacing.wider_eq_blankLines, ih, List.exists_mem_cons_iff]

theorem spacingAll_eq_inline : spacingAll es = .inline ↔ ∀ e ∈ es, e.spacing = .inline := by
  induction es with
  | nil => simp [spacingAll]
  | cons e es ih => rw [spacingAll, Spacing.wider_eq_inline, ih, List.forall_mem_cons]

theorem exists_preorder {P : Expr → Prop} :
    (∃ n ∈ e.preorder, P n) ↔ P e ∨ ∃ c ∈ e.children, ∃ n ∈ c.preorder, P n := by
  rw [preorder_eq]
  simp only [List.mem_cons, List.mem_flatMap]
  grind

/-- What is said of all nodes of a tree is said of the nodes of its nodes. -/
theorem forall_preorder_preorder {P : Expr → Prop} (h : ∀ n ∈ e.preorder, P n) :
    ∀ n ∈ e.preorder, ∀ m ∈ n.preorder, P m := by
  induction e using inductionOnChildren with
  | node e ih => exact forall_preorder.2 ⟨h, fun c hc => ih c hc ((forall_preorder.1 h).2 c hc)⟩

/-- Blank lines are asked for by documentation above something, however deep in the tree it is. -/
theorem spacing_eq_blankLines : e.spacing = .blankLines ↔ ∃ n ∈ e.preorder, n.isHeaded := by
  induction e using inductionOnChildren with
  | node e ih =>
    rw [spacing_eq, Spacing.wider_eq_blankLines, ownSpacing_eq_blankLines, spacingAll_eq_blankLines,
      exists_preorder]
    exact or_congr_right (exists_congr fun c => and_congr_right fun hc => ih c hc)

/-- No lines are broken if no node of the tree attaches documentation or has more than two parts. -/
theorem spacing_eq_inline : e.spacing = .inline ↔ ∀ n ∈ e.preorder, ¬n.Spread := by
  induction e using inductionOnChildren with
  | node e ih =>
    rw [spacing_eq, Spacing.wider_eq_inline, ownSpacing_eq_inline, spacingAll_eq_inline,
      forall_preorder]
    exact and_congr_right fun _ => forall₂_congr fun c hc => ih c hc

/-- The spacing of a tree by what is anywhere in it. -/
theorem spacing_eq_ite (e : Expr) : e.spacing =
    if ∃ n ∈ e.preorder, n.isHeaded then .blankLines
    else if ∃ n ∈ e.preorder, n.Spread then .lines
    else .inline := by
  split
  · next hheaded => exact spacing_eq_blankLines.2 hheaded
  · next hheaded =>
    have hblank : e.spacing ≠ .blankLines := mt spacing_eq_blankLines.1 hheaded
    split
    · next hspread =>
      obtain ⟨n, hn, hspread⟩ := hspread
      have hinline : e.spacing ≠ .inline := fun h => spacing_eq_inline.1 h n hn hspread
      cases hs : e.spacing <;> simp_all
    · next hspread => exact spacing_eq_inline.2 fun n hn h => hspread ⟨n, hn, h⟩

end Expr

end DocExpr
