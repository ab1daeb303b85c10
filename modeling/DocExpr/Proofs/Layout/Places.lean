import DocExpr.Format
import DocExpr.Proofs.Grammar.Admissible

/-!
# Places are not written

What is written for a tree does not depend on the places of its parts in a source, neither the
spacing (`Expr.spacing_erase`) nor the text (`Goal.format_congr`).
-/

namespace DocExpr

namespace Expr

@[simp] theorem length_eraseAll (es : List Expr) : (eraseAll es).length = es.length := by
  simp [eraseAll_eq_map]

theorem isLeading_erase (e : Expr) : e.erase.isLeading = e.isLeading := by
  cases e <;> simp only [erase]
  case block form _ _ => cases form <;> rfl
  all_goals rfl

theorem ownSpacing_erase (e : Expr) : e.erase.ownSpacing = e.ownSpacing := by
  cases e with
  | chain op operands o =>
    have hhead : (eraseAll operands).head?.any isLeading = operands.head?.any isLeading := by
      cases operands <;> simp [eraseAll, isLeading_erase]
    cases op <;> simp [erase, ownSpacing, children, hhead]
  | _ => simp [erase, ownSpacing, children]

mutual

/-- The spacing of a tree does not depend on its places. -/
theorem spacing_erase : (e : Expr) → e.erase.spacing = e.spacing
  | atom .. => rfl
  | block form _ _ => by cases form <;> rfl
  | suffixed _ item _ | unary _ item _ => by
    rw [spacing_eq, spacing_eq, ownSpacing_erase]
    simp [erase, children, spacingAll, spacing_erase item]
  | map item key _ => by
    rw [spacing_eq, spacing_eq, ownSpacing_erase]
    simp [erase, children, spacingAll, spacing_erase item, spacing_erase key]
  | call callee arguments _ => by
    rw [spacing_eq, spacing_eq, ownSpacing_erase]
    simp [erase, children, spacingAll, spacing_erase callee, spacing_erase arguments]
  | array es _ | group es _ | chain _ es _ => by
    rw [spacing_eq, spacing_eq, ownSpacing_erase]
    simp [erase, children, spacingAll_eraseAll es]

theorem spacingAll_eraseAll : (es : List Expr) → spacingAll (eraseAll es) = spacingAll es
  | [] => rfl
  | e :: es => by rw [eraseAll, spacingAll, spacingAll, spacing_erase e, spacingAll_eraseAll es]

end

theorem write_call {arguments : Expr} (h : arguments.isGroup = false) (callee : Expr) (o : Origin)
    (p : Page) : (call callee arguments o).write p =
      (callee.write p).parenthesized arguments.spacing
        fun p => (arguments.write p).verticalSpacing := by
  cases arguments with
  | group => cases h
  | _ => simp [write]

mutual

/-- What is written for a tree does not depend on its places. -/
theorem write_erase : (e : Expr) → e.erase.write = e.write
  | atom .. => rfl
  | block form _ _ => by cases form <;> rfl
  | suffixed _ item _ => by
    funext p
    simp [erase, write, write_erase item]
  | unary _ operand _ => by
    funext p
    simp [erase, write, write_erase operand]
  | map item key _ => by
    funext p
    simp [erase, write, write_erase item, write_erase key]
  | call callee arguments _ => by
    have hspacing := spacing_erase arguments
    have hwrite := write_erase arguments
    funext p
    cases arguments with
    | group items o => simp_all [erase, write, write_erase callee, writeItems_eraseAll items]
    | _ =>
      rw [erase, write_call rfl, write_call rfl, hspacing, hwrite, write_erase callee]
  | array elements _ => by
    funext p
    simp [erase, write, writeSeparated_eraseAll _ elements]
  | group items o => by
    have hspacing := spacing_erase (group items o)
    funext p
    simp_all [erase, write, writeItems_eraseAll items]
  | chain op operands o => by
    have hspacing := spacing_erase (chain op operands o)
    funext p
    cases op <;> simp_all [erase, write, writeUnion_eraseAll, writeSeparated_eraseAll]

theorem writeSeparated_eraseAll (separator : String) :
    (es : List Expr) → writeSeparated separator (eraseAll es) = writeSeparated separator es
  | [] => rfl
  | [e] => by
    funext p
    simp [eraseAll, writeSeparated, write_erase e]
  | e :: f :: es => by
    have := writeSeparated_eraseAll separator (f :: es)
    funext p
    simp_all [eraseAll, writeSeparated, write_erase e]

theorem writeItems_eraseAll : (es : List Expr) → writeItems (eraseAll es) = writeItems es
  | [] => rfl
  | [e] => by
    funext p
    simp [eraseAll, writeItems, write_erase e]
  | e :: f :: es => by
    have := writeItems_eraseAll (f :: es)
    funext p
    simp_all [eraseAll, writeItems, write_erase e]

theorem writeUnion_eraseAll : (first : Bool) → (es : List Expr) →
    writeUnion first (eraseAll es) = writeUnion first es
  | _, [] => rfl
  | first, e :: es => by
    funext p
    simp [eraseAll, writeUnion, write_erase e, writeUnion_eraseAll false es]

end

end Expr

/-- Trees that are the same up to places have the same text. -/
theorem Goal.format_congr {e e' : Expr} (h : e.alike e') (goal : Goal) (width : Nat) :
    goal.format e width = goal.format e' width := by
  suffices ∀ e : Expr, goal.format e.erase width = goal.format e width by
    rw [← this e, ← this e', (Expr.alike_iff_erase_eq e e').1 h]
  intro e
  cases goal with
  | expression => simp [format, Expr.format, Expr.write_erase]
  | items =>
    have hitems : e.erase.items = Expr.eraseAll e.items := by
      cases e <;> simp [Expr.erase, Expr.items, Expr.eraseAll]
    simp [format, Expr.formatItems, Expr.writeFile, Expr.spacing_erase, hitems,
      Expr.writeItems_eraseAll]

end DocExpr
