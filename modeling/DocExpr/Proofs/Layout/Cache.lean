import DocExpr.Layout.Cache
import DocExpr.Proofs.Layout.Places
import DocExpr.Proofs.Layout.Spacings

/-!
# Spacings that are known

The spacings that a writer keeps are those of their nodes (`Memory.Sound`). It stays so when it is
asked for a spacing (`Memory.answers_query`) and when it writes a tree, and what it writes is what
is written without a cache (`Memory.writes_writeAt`). So nothing depends on what the writer was used
for before (`Memory.spacing_runAll`).
-/

namespace DocExpr

open DocExpr.Expr Cache

variable {α : Type} {m : Memory α}

namespace Memory

/-- Whether all spacings that are known are those of their nodes. -/
def Sound (m : Memory α) (cache : Cache α) : Prop :=
  ∀ a s, cache a = some s → s = (m.node a).spacing

/-- Whether a query answers with a spacing, and what is known stays right. -/
def Answers (m : Memory α) (query : Query α) (s : Spacing) : Prop :=
  ∀ cache, m.Sound cache → (query cache).1 = s ∧ m.Sound (query cache).2

theorem sound_empty (m : Memory α) : m.Sound .empty := fun _ _ h => by cases h

theorem Sound.insert [DecidableEq α] {cache : Cache α} (h : m.Sound cache) (a : α) :
    m.Sound (cache.insert a (m.node a).spacing) := by
  intro b s hs
  unfold Cache.insert at hs
  split at hs
  · next hab => exact hab ▸ (Option.some.inj hs).symm
  · exact h b s hs

theorem Answers.remember [DecidableEq α] {a : α} {e : Expr} {query : Query α}
    (h : m.Answers query e.spacing) (he : m.node a = e) :
    m.Answers (remember a query) e.spacing := by
  subst he
  intro cache hcache
  unfold Cache.remember
  split
  · next s hs => exact ⟨hcache a s hs, hcache⟩
  · obtain ⟨hquery, hsound⟩ := h cache hcache
    rw [hquery]
    exact ⟨rfl, hsound.insert a⟩

/-- Some parts that are asked one after the other make the spacing as wide as the widest of theirs,
also if not all of them are asked. -/
theorem answers_widen {s : Spacing} (hs : s ≠ .blankLines) {parts : List (Query α)} {es : List Expr}
    (h : List.Forall₂ (fun part e => m.Answers part e.spacing) parts es) :
    m.Answers (widen s parts) (s.wider (spacingAll es)) := by
  induction h generalizing s with
  | nil => exact fun cache hcache => ⟨(Spacing.wider_inline s).symm, hcache⟩
  | @cons part e parts es hpart _ ih =>
    intro cache hcache
    obtain ⟨hanswer, hsound⟩ := hpart cache hcache
    rw [spacingAll, widen]
    cases hpart : part cache with
    | mk t cache' =>
      rw [hpart] at hanswer hsound
      subst hanswer
      cases ht : e.spacing with
      | blankLines => exact ⟨by cases s <;> rfl, hsound⟩
      | lines =>
        have hlines : s.wider (Spacing.lines.wider (spacingAll es)) =
            Spacing.lines.wider (spacingAll es) := by
          cases s with
          | blankLines => exact absurd rfl hs
          | inline => exact Spacing.inline_wider _
          | lines => rw [← Spacing.wider_assoc]; rfl
        rw [hlines]
        exact ih (by decide) cache' hsound
      | inline =>
        rw [Spacing.inline_wider]
        exact ih hs cache' hsound

theorem answers_calculate {e : Expr} {parts : List (Query α)}
    (h : List.Forall₂ (fun part c => m.Answers part c.spacing) parts e.children) :
    m.Answers (calculate e parts) e.spacing := by
  intro cache hcache
  rw [spacing_eq, calculate]
  cases hown : e.ownSpacing with
  | blankLines => exact ⟨rfl, hcache⟩
  | lines => exact answers_widen (by decide) h cache hcache
  | inline => exact answers_widen (by decide) h cache hcache

/-- Whether some trees are parts of the node at an address, from a number on. -/
def PartsAt (m : Memory α) (es : List Expr) (a : α) (i : Nat) : Prop :=
  ∀ j c, es[j]? = some c → m.node (m.part a (i + j)) = c

variable {a : α} {i : Nat} {e c : Expr} {es : List Expr}

theorem partsAt_children (h : m.node a = e) : m.PartsAt e.children a 0 := by
  subst h
  intro i c hc
  obtain ⟨hi, rfl⟩ := List.getElem?_eq_some_iff.1 hc
  rw [Nat.zero_add]
  exact m.node_part a i hi

theorem PartsAt.head (h : m.PartsAt (e :: es) a i) : m.node (m.part a i) = e := h 0 e rfl

theorem PartsAt.tail (h : m.PartsAt (e :: es) a i) : m.PartsAt es a (i + 1) := by
  intro j c hc
  rw [Nat.add_assoc, Nat.add_comm 1]
  exact h (j + 1) c hc

section Spacings

variable [DecidableEq α]

mutual

/-- A tree that is asked for its spacing answers with it. -/
theorem answers_query : (e : Expr) → {a : α} → m.node a = e → m.Answers (m.query e a) e.spacing
  | atom .., _, h => (answers_calculate .nil).remember h
  | block .., _, h => (answers_calculate .nil).remember h
  | suffixed form item o, _, h =>
    have hparts := partsAt_children h
    (answers_calculate (e := suffixed form item o)
      (.cons (answers_query item hparts.head) .nil)).remember h
  | unary op operand o, _, h =>
    have hparts := partsAt_children h
    (answers_calculate (e := unary op operand o)
      (.cons (answers_query operand hparts.head) .nil)).remember h
  | map item key o, _, h =>
    have hparts := partsAt_children h
    have hitem := answers_query item hparts.head
    have hkey := answers_query key hparts.tail.head
    (answers_calculate (e := map item key o) (.cons hitem (.cons hkey .nil))).remember h
  | call callee arguments o, _, h =>
    have hparts := partsAt_children h
    have hcallee := answers_query callee hparts.head
    have harguments := answers_query arguments hparts.tail.head
    (answers_calculate (e := call callee arguments o)
      (.cons hcallee (.cons harguments .nil))).remember h
  | array elements _, _, h =>
    (answers_calculate (answers_queryAll elements (partsAt_children h))).remember h
  | group items _, _, h =>
    (answers_calculate (answers_queryAll items (partsAt_children h))).remember h
  | chain _ operands _, _, h =>
    (answers_calculate (answers_queryAll operands (partsAt_children h))).remember h

theorem answers_queryAll : (es : List Expr) → {a : α} → {i : Nat} → m.PartsAt es a i →
    List.Forall₂ (fun part e => m.Answers part e.spacing) (m.queryAll es a i) es
  | [], _, _, _ => .nil
  | e :: es, _, _, h => .cons (answers_query e h.head) (answers_queryAll es h.tail)

end

end Spacings

/-! ## Writing -/

/-- Whether a writer does with its page what is done with any page, and what it knows stays
right. -/
def Writes (m : Memory α) (f : Desk α → Desk α) (body : Page → Page) : Prop :=
  ∀ d, m.Sound d.cache → (f d).page = body d.page ∧ m.Sound (f d).cache

section Parts

variable {f g : Desk α → Desk α} {body rest : Page → Page} {query : Query α} {s : Spacing}

theorem writes_nothing : m.Writes (fun d => d) fun p => p := fun _ h => ⟨rfl, h⟩

theorem writes_onPage (body : Page → Page) : m.Writes (fun d => d.onPage body) body :=
  fun _ h => ⟨rfl, h⟩

theorem Writes.next (hf : m.Writes f body) (hg : m.Writes g rest) :
    m.Writes (fun d => g (f d)) fun p => rest (body p) := by
  intro d hd
  obtain ⟨hpage, hcache⟩ := hf d hd
  obtain ⟨hpage', hcache'⟩ := hg (f d) hcache
  exact ⟨hpage'.trans (congrArg rest hpage), hcache'⟩

theorem Writes.onPage (hf : m.Writes f body) (rest : Page → Page) :
    m.Writes (fun d => (f d).onPage rest) fun p => rest (body p) :=
  hf.next (writes_onPage rest)

theorem Writes.indentedIfSpaced (hf : m.Writes f body) :
    m.Writes (fun d => d.indentedIfSpaced f) fun p => p.indentedIfSpaced body := by
  intro d hd
  simp only [Desk.indentedIfSpaced, Page.indentedIfSpaced, Page.indentedIf]
  split
  · exact ((writes_onPage Page.indentMore).next hf).onPage Page.indentLess d hd
  · exact hf d hd

theorem Writes.spaced (s : Spacing) (hf : m.Writes f body) :
    m.Writes (fun d => d.spaced s f) fun p => p.spaced s body :=
  ((writes_onPage (·.pushMode s)).next hf).onPage Page.popMode

/-- Asking for a spacing does nothing with the page. -/
theorem Answers.ask {f : Spacing → Desk α → Desk α} (hquery : m.Answers query s)
    (hf : m.Writes (f s) body) :
    m.Writes (fun d => f (d.ask query).1 (d.ask query).2) body := by
  intro d hd
  obtain ⟨rfl, hcache⟩ := hquery d.cache hd
  exact hf (d.ask query).2 hcache

theorem Writes.parenthesized (hquery : m.Answers query s) (hf : m.Writes f body) :
    m.Writes (fun d => d.parenthesized query f) fun p => p.parenthesized s body :=
  hquery.ask (f := fun s d => ((d.onPage (·.append "(")).spaced s fun d =>
      (d.onPage .verticalSpacing).indentedIfSpaced f).onPage (·.append ")"))
    (((writes_onPage (·.append "(")).next
      (((writes_onPage Page.verticalSpacing).next hf.indentedIfSpaced).spaced s)).onPage
        (·.append ")"))

end Parts

variable [DecidableEq α]

mutual

/-- A writer writes a tree as it is written without a cache. -/
theorem writes_writeAt : (e : Expr) → {a : α} → m.node a = e → m.Writes (m.writeAt e a) e.write
  | atom .., _, _ => writes_onPage _
  | block .., _, _ => writes_onPage _
  | suffixed form item o, _, h =>
    (writes_writeAt item (partsAt_children h).head).onPage (·.append form.text)
  | map item key o, _, h => by
    have hitem := writes_writeAt item (partsAt_children h).head
    have hkey := writes_writeAt key (partsAt_children h).tail.head
    exact ((hitem.onPage (·.append "\x7b")).next hkey).onPage (·.append "\x7d")
  | call callee arguments o, _, h => by
    have hcallee := writes_writeAt callee (partsAt_children h).head
    have harguments := (partsAt_children h).tail.head
    have hquery := answers_query arguments harguments
    have hwrite := writes_writeAt arguments harguments
    cases arguments with
    | group items o' =>
      have hitems := writes_writeItems items (partsAt_children harguments)
      exact hcallee.next (hitems.parenthesized hquery)
    | _ => exact hcallee.next ((hwrite.onPage Page.verticalSpacing).parenthesized hquery)
  | array elements o, _, h =>
    ((writes_onPage (·.append "[")).next
      (writes_writeSeparated ", " elements (partsAt_children h))).onPage
      (·.append "]")
  | group items o, _, h =>
    (writes_writeItems items (partsAt_children h)).parenthesized (answers_query (group items o) h)
  | chain op operands o, _, h => by
    have hquery := answers_query (chain op operands o) h
    have hunion := writes_writeUnion true operands (partsAt_children h)
    have hseparated := writes_writeSeparated op.separator operands (partsAt_children h)
    cases op with
    | union =>
      exact hquery.ask (f := fun s d => d.spaced s (m.writeUnion true operands _ 0))
        (hunion.spaced _)
    | _ => exact hseparated
  | unary op operand o, _, h =>
    (writes_onPage (·.append op.text)).next (writes_writeAt operand (partsAt_children h).head)

theorem writes_writeSeparated (separator : String) : (es : List Expr) → {a : α} → {i : Nat} →
    m.PartsAt es a i → m.Writes (m.writeSeparated separator es a i)
      (Expr.writeSeparated separator es)
  | [], _, _, _ => writes_nothing
  | [e], _, _, h => writes_writeAt e h.head
  | e :: f :: es, _, _, h =>
    ((writes_writeAt e h.head).onPage (·.append separator)).next
      (writes_writeSeparated separator (f :: es) h.tail)

theorem writes_writeItems : (es : List Expr) → {a : α} → {i : Nat} → m.PartsAt es a i →
    m.Writes (m.writeItems es a i) (Expr.writeItems es)
  | [], _, _, _ => writes_onPage _
  | [e], _, _, h => (writes_writeAt e h.head).onPage Page.verticalSpacing
  | e :: f :: es, _, _, h =>
    (((writes_writeAt e h.head).onPage (·.append ", ")).onPage Page.verticalSpacing).next
      (writes_writeItems (f :: es) h.tail)

theorem writes_writeUnion (first : Bool) :
    (es : List Expr) → {a : α} → {i : Nat} → m.PartsAt es a i →
    m.Writes (m.writeUnion first es a i) (Expr.writeUnion first es)
  | [], _, _, _ => writes_nothing
  | e :: es, _, _, h => by
    have hbar : m.Writes (fun d => if first then d else d.onPage (·.append " | "))
        fun p => if first then p else p.append " | " := by
      cases first with
      | true => exact writes_nothing
      | false => exact writes_onPage (·.append " | ")
    have hoperand := (hbar.next (writes_writeAt e h.head)).indentedIfSpaced
    exact ((writes_onPage Page.verticalSpacing).next hoperand).next
      (writes_writeUnion false es h.tail)

end

theorem answers_spacing (a : α) : m.Answers (m.spacing a) (m.node a).spacing := answers_query _ rfl

theorem writes_write (a : α) : m.Writes (m.write a) (m.node a).write := writes_writeAt _ rfl

theorem writes_writeFile (a : α) : m.Writes (m.writeFile a) (m.node a).writeFile := by
  have hwrite := (writes_write (m := m) a).onPage Page.verticalSpacing
  have hparts := partsAt_children (m := m) (a := a) rfl
  refine (answers_spacing a).ask (f := fun s d => d.spaced s _) (.spaced _ ?_)
  cases hnode : m.node a with
  | group items o =>
    rw [hnode] at hparts
    exact writes_writeItems items hparts
  | _ =>
    rw [hnode] at hwrite
    exact hwrite

/-! ## Tasks -/

theorem Sound.run {cache : Cache α} (h : m.Sound cache) (task : Task α) :
    m.Sound (m.run task cache) := by
  cases task with
  | spacing a => exact (answers_spacing a cache h).2
  | write a p => exact (writes_write a ⟨p, cache⟩ h).2
  | writeFile a p => exact (writes_writeFile a ⟨p, cache⟩ h).2

/-- Whatever a writer has done, what it knows is right. -/
theorem sound_runAll (m : Memory α) (tasks : List (Task α)) : m.Sound (m.runAll tasks) := by
  have hfold : ∀ cache, m.Sound cache →
      m.Sound (tasks.foldl (fun cache task => m.run task cache) cache) := by
    induction tasks with
    | nil => exact fun _ h => h
    | cons task tasks ih => exact fun cache h => ih _ (h.run task)
  exact hfold .empty m.sound_empty

end Memory

/-- The spacing of a tree is that of the node in it that asks for the most: for blank lines if
documentation stands above something, and for lines if documentation is attached to something or
there are more than two parts. A writer has this spacing for each node, and so writes what is
written without a cache, whatever it was asked for before. -/
theorem Memory.spacing_runAll :
    (∀ e : Expr, e.spacing =
      if ∃ n ∈ e.preorder, n.isHeaded then .blankLines
      else if ∃ n ∈ e.preorder, n.isChainOf .document ∨ 2 < n.children.length then .lines
      else .inline) ∧
    ∀ {α : Type} [DecidableEq α] (m : Memory α) (tasks : List (Task α)) (a : α),
      (m.spacing a (m.runAll tasks)).1 = (m.node a).spacing ∧
      (m.runAll tasks a = none ∨ m.runAll tasks a = some (m.node a).spacing) ∧
      ∀ p, (m.write a ⟨p, m.runAll tasks⟩).page = (m.node a).write p ∧
        (m.writeFile a ⟨p, m.runAll tasks⟩).page = (m.node a).writeFile p := by
  refine ⟨spacing_eq_ite, fun m tasks a => ?_⟩
  have hsound := m.sound_runAll tasks
  refine ⟨(answers_spacing a _ hsound).1, ?_, fun p => ?_⟩
  · cases hknown : m.runAll tasks a with
    | none => exact .inl rfl
    | some s => exact .inr (congrArg some (hsound a s hknown))
  · exact ⟨(writes_write a ⟨p, _⟩ hsound).1, (writes_writeFile a ⟨p, _⟩ hsound).1⟩

/-- Writing a sum asks for the spacing of the group in it only. -/
example :
    let name (text : String) : Expr := .atom .identifier text .synthetic
    let e : Expr :=
      .chain .add [name "x", .group [.array [name "a", name "b", name "c"] .synthetic] .synthetic]
      .synthetic
    let known := (Memory.ofTree e).runAll [.write [] (.empty 4)]
    known [] = none ∧ known [0] = none ∧ known [1] = some .lines ∧ known [0, 1] = some .lines := by
  decide +kernel

end DocExpr
