import DocExpr.Parse.Source
import Mathlib.Data.List.Basic

/-!
# Reading by recursive descent

The expression machine keeps what has been begun on a stack. By recursive descent the same is done
by routines that call each other and have no stack of their own: `Routine.body` says what a routine
does where it starts, which is to stop, to go on as another routine, or to call one and go on with
what that returns. `Routine.Returns` is a call that comes back, with a bound on how many calls that
read an expression are open at a time.

What a routine can do is said once (`Routine.Does`, `Routine.does_body`): it takes no end of input
on its way, and what it calls or becomes either starts behind a token or comes before it in a fixed
order. So every routine returns, and no more calls are open than there are tokens before the end of
the input, and one (`Routine.exists_returns`); an expression that is read takes a token
(`Routine.Returns.advances`). There are inputs that need as many calls
(`Routine.Returns.lt_of_parentheses`).
-/

namespace DocExpr

/-- What is to be done where some tokens are still to be taken. -/
inductive Routine where
  /-- To read an expression whose continuations have at least a given power. -/
  | expression (least : Nat)
  /-- To read what an expression begins with. -/
  | operand
  /-- To read what continues an expression. -/
  | operators (least : Nat) (lhs : Expr)
  /-- To read on behind an item and a token that opened something there. -/
  | opened (form : Postfixed) (item : Expr) (origin : Origin)
  /-- To end a map behind its key. -/
  | keyed (item key : Expr) (origin : Origin)
  /-- To read an array behind its bracket. -/
  | array (origin : Origin)
  /-- To read the next element of an array. -/
  | elements (done : List Expr) (origin : Origin)
  /-- To read on behind an element. -/
  | behindElement (done : List Expr) (origin : Origin)
  /-- To read items up to a token of a kind, which is taken. -/
  | items (closer : Kind) (done : List Expr) (origin : Origin)
  /-- To read on behind an item. -/
  | behindItem (closer : Kind) (done : List Expr) (origin : Origin)
  /-- To return an expression. -/
  | finished (e : Expr)

/-- What a routine does. -/
inductive Action where
  | stop (result : Except ParseError Expr) (left : Lookahead)
  /-- To go on as another routine. -/
  | become (r : Routine) (l : Lookahead)
  /-- To call a routine, and to go on with what it returns. An error is passed on. -/
  | call (inner : Routine) (l : Lookahead) (next : Expr → Routine)

namespace Lookahead

/-- What is done at the next token, unless that is a fault. -/
def looking (l : Lookahead) (act : Token → Action) : Action :=
  match l.peek.kind.fault? with
  | some fault => .stop (.error (.lexical fault.code l.peek)) l
  | none => act l.peek

/-- Takes a token that has to be of a kind, and returns an expression. -/
def closing (l : Lookahead) (closer : Kind) (e : Expr) : Action :=
  l.looking fun t =>
    if t.kind = closer then .stop (.ok e) l.read.2 else .stop (.error (.expected [closer] t)) l

/-- The number of tokens before the next end of input. -/
def ahead (l : Lookahead) : Nat := (l.unread.takeWhile fun t => t.kind ≠ .eof).length

end Lookahead

namespace Routine

/-- What a routine does where it starts. -/
def body (l : Lookahead) : Routine → Action
  | expression least => .call .operand l (operators least)
  | operand => l.looking fun t =>
    match t.kind.unary? with
    | some op => .call (expression op.power) l.read.2 fun e => finished (.unary op e t.origin)
    | none =>
      match t.kind with
      | .atom form => .stop (.ok (.atom form t.text t.origin)) l.read.2
      | .block form => .stop (.ok (.block form t.lines t.origin)) l.read.2
      | .mark .leftBracket => .become (array t.origin) l.read.2
      | .mark .leftParenthesis => .become (items (.mark .rightParenthesis) [] t.origin) l.read.2
      | _ => .stop (.error (.expected expressionStart t)) l.read.2
  | operators least lhs => l.looking fun t =>
    match t.kind.postfixed? with
    | some form =>
      if least ≤ postfixPower then .call (opened form lhs t.origin) l.read.2 (operators least)
      else .stop (.ok lhs) l
    | none =>
      match t.kind.binary? with
      | some op =>
        if least ≤ op.left then
          .call (expression op.right) l.read.2 fun rhs => operators least (lhs.join op t.origin rhs)
        else .stop (.ok lhs) l
      | none => .stop (.ok lhs) l
  | opened .brace item o => l.looking fun t =>
    if t.kind = .mark .rightBrace then .stop (.ok (.suffixed .set item o)) l.read.2
    else .call (expression 0) l fun key => keyed item key o
  | opened .bracket item o => l.looking fun t =>
    if t.kind = .mark .semicolon then
      l.read.2.closing (.mark .rightBracket) (.suffixed .list item o)
    else if t.kind = .mark .rightBracket then .stop (.ok (.suffixed .array item o)) l.read.2
    else .stop (.error (.unsupportedIndex o)) l
  | opened .call callee o =>
    .call (items (.mark .rightParenthesis) [] o) l fun arguments =>
      finished (.call callee arguments o)
  | opened .optional item o => .stop (.ok (.suffixed .optional item o)) l
  | keyed item key o => l.closing (.mark .rightBrace) (.map item key o)
  | array o => l.looking fun t =>
    if t.kind = .mark .rightBracket then
      .stop (.ok (.array [] o)) l.read.2 else .become (elements [] o) l
  | elements done o => .call (expression 0) l fun e => behindElement (done ++ [e]) o
  | behindElement done o => l.looking fun t =>
    if t.kind = .mark .comma then .become (elements done o) l.read.2
    else l.closing (.mark .rightBracket) (.array done o)
  | items closer done o => l.looking fun t =>
    if t.kind = closer then l.closing closer (.group done o)
    else .call (expression 0) l fun e => behindItem closer (done ++ [e]) o
  | behindItem closer done o => l.looking fun t =>
    if t.kind = .mark .comma then .become (items closer done o) l.read.2
    else l.closing closer (.group done o)
  | finished e => .stop (.ok e) l

/-- How many open calls for expressions a routine adds itself. -/
@[simp] def cost : Routine → Nat
  | expression _ => 1
  | _ => 0

/-- Whether a routine returns a result and leaves some tokens, with at most `depth` calls for
expressions open at a time, its own counted. -/
inductive Returns : Nat → Routine → Lookahead → Except ParseError Expr → Lookahead → Prop where
  | stop {depth : Nat} {r : Routine} {l left : Lookahead} {result : Except ParseError Expr}
      (hd : r.cost ≤ depth) (h : r.body l = .stop result left) : Returns depth r l result left
  | become {depth d : Nat} {r r' : Routine} {l l' left : Lookahead}
      {result : Except ParseError Expr} (hd : d + r.cost ≤ depth) (h : r.body l = .become r' l')
      (hrest : Returns d r' l' result left) :
      Returns depth r l result left
  | fail {depth d : Nat} {r inner : Routine} {l l' left : Lookahead} {next : Expr → Routine}
      {error : ParseError} (hd : d + r.cost ≤ depth) (h : r.body l = .call inner l' next)
      (hinner : Returns d inner l' (.error error) left) : Returns depth r l (.error error) left
  | next {depth d : Nat} {r inner : Routine} {l l' between left : Lookahead} {next : Expr → Routine}
      {e : Expr} {result : Except ParseError Expr} (hd : d + r.cost ≤ depth)
      (h : r.body l = .call inner l' next)
      (hinner : Returns d inner l' (.ok e) between)
      (hrest : Returns d (next e) between result left) :
      Returns depth r l result left

theorem Returns.mono {d d' : Nat} {r : Routine} {l left : Lookahead}
    {result : Except ParseError Expr} (h : Returns d r l result left) (hle : d ≤ d') :
    Returns d' r l result left := by
  cases h with
  | stop hd h => exact .stop (Nat.le_trans hd hle) h
  | become hd h hrest => exact .become (Nat.le_trans hd hle) h hrest
  | fail hd h hinner => exact .fail (Nat.le_trans hd hle) h hinner
  | next hd h hinner hrest => exact .next (Nat.le_trans hd hle) h hinner hrest

/-- A routine returns one result. -/
theorem Returns.unique {d d' : Nat} {r : Routine} {l left left' : Lookahead}
    {result result' : Except ParseError Expr} (h : Returns d r l result left)
    (h' : Returns d' r l result' left') : result = result' ∧ left = left' := by
  induction h generalizing d' result' left' with
  | stop _ h =>
    cases h' with
    | stop _ h' =>
      obtain ⟨rfl, rfl⟩ := Action.stop.inj (h.symm.trans h')
      exact ⟨rfl, rfl⟩
    | become _ h' | fail _ h' | next _ h' => cases h.symm.trans h'
  | become _ h _ ih =>
    cases h' with
    | become _ h' hrest' =>
      obtain ⟨rfl, rfl⟩ := Action.become.inj (h.symm.trans h')
      exact ih hrest'
    | stop _ h' | fail _ h' | next _ h' => cases h.symm.trans h'
  | fail _ h _ ih =>
    cases h' with
    | fail _ h' hinner' =>
      obtain ⟨rfl, rfl, rfl⟩ := Action.call.inj (h.symm.trans h')
      exact ih hinner'
    | next _ h' hinner' =>
      obtain ⟨rfl, rfl, rfl⟩ := Action.call.inj (h.symm.trans h')
      cases (ih hinner').1
    | stop _ h' | become _ h' => cases h.symm.trans h'
  | next _ h _ _ ihinner ihrest =>
    cases h' with
    | fail _ h' hinner' =>
      obtain ⟨rfl, rfl, rfl⟩ := Action.call.inj (h.symm.trans h')
      cases (ihinner hinner').1
    | next _ h' hinner' hrest' =>
      obtain ⟨rfl, rfl, rfl⟩ := Action.call.inj (h.symm.trans h')
      obtain ⟨heq, rfl⟩ := ihinner hinner'
      obtain rfl := Except.ok.inj heq
      exact ihrest hrest'
    | stop _ h' | become _ h' => cases h.symm.trans h'

end Routine

/-! ## What a routine can do -/

namespace Lookahead

variable {l l' left : Lookahead} {n m : Nat}

/-- Whether other tokens are left when at least so many were taken, none of them an end of input. -/
def Advances (n : Nat) (l l' : Lookahead) : Prop :=
  ∃ taken, n ≤ taken.length ∧ l.unread = taken ++ l'.unread ∧ ∀ t ∈ taken, t.kind ≠ .eof

theorem Advances.refl (l : Lookahead) : Advances 0 l l := ⟨[], by simp, rfl, by simp⟩

theorem Advances.trans {k : Lookahead} (h : Advances n l l') (h' : Advances m l' k) :
    Advances (n + m) l k := by
  obtain ⟨taken, hn, hl, htaken⟩ := h
  obtain ⟨taken', hm, hl', htaken'⟩ := h'
  exact ⟨taken ++ taken', by rw [List.length_append]; omega, by rw [hl, hl', List.append_assoc],
    List.forall_mem_append.2 ⟨htaken, htaken'⟩⟩

theorem Advances.mono (h : Advances n l l') (hm : m ≤ n) : Advances m l l' := by
  obtain ⟨taken, hn, h⟩ := h
  exact ⟨taken, by omega, h⟩

theorem Advances.suffix (h : Advances n l l') : l'.unread <:+ l.unread := by
  obtain ⟨taken, -, hl, -⟩ := h
  exact ⟨taken, hl.symm⟩

theorem Advances.ahead_le (h : Advances n l l') : l'.ahead + n ≤ l.ahead := by
  obtain ⟨taken, hn, hl, htaken⟩ := h
  rw [ahead, ahead, hl, List.takeWhile_append_of_pos (by simpa using htaken), List.length_append]
  omega

/-- A token that is no end of input is one of those that are still to be taken. -/
theorem advances_read (h : l.peek.kind ≠ .eof) : Advances 1 l l.read.2 := by
  obtain ⟨unread, finish⟩ := l
  cases unread with
  | nil => exact absurd rfl h
  | cons t ts => exact ⟨[t], by simp, rfl, by simpa using h⟩

theorem suffix_read (l : Lookahead) : l.read.2.unread <:+ l.unread := List.tail_suffix _

end Lookahead

namespace Routine

variable {r r' inner : Routine} {l l' left : Lookahead} {n : Nat} {next : Expr → Routine} {e : Expr}

/-- How many tokens a routine takes at least when it returns an expression. -/
@[simp] def taking : Routine → Nat
  | expression _ | operand => 1
  | _ => 0

/-- Whether a routine can call for an expression before it has taken a token, its own call
counted. -/
@[simp] def reach : Routine → Nat
  | expression _ | opened .. | array _ | elements .. | items .. => 1
  | _ => 0

/-- An order of the routines: where no token is taken, lower ones are called. -/
@[simp] def rank : Routine → Nat
  | opened .. | array _ => 4
  | elements .. | items .. => 3
  | expression _ => 2
  | operand => 1
  | _ => 0

/-- Whether a routine takes no end of input when it returns an expression. -/
@[simp] def Proper : Routine → Prop
  | items closer .. | behindItem closer .. => closer ≠ .eof
  | _ => True

theorem rank_le (r : Routine) : r.rank ≤ 4 := by cases r <;> simp

theorem taking_le (r : Routine) : r.taking ≤ 1 := by cases r <;> simp

theorem reach_le (r : Routine) : r.reach ≤ 1 := by cases r <;> simp

theorem cost_le_reach (r : Routine) : r.cost ≤ r.reach := by cases r <;> simp

/-- What is known of a routine that another one becomes or calls after at least `n` tokens. -/
structure Leads (r : Routine) (l : Lookahead) (n : Nat) (r' : Routine) (l' : Lookahead) : Prop where
  advances : l.Advances n l'
  taking : r.taking ≤ n + r'.taking
  smaller : 0 < n ∨ r'.rank < r.rank
  reach : r'.reach + r.cost ≤ n + r.reach

/-- Behind a token every routine can follow. -/
theorem leads_behind (h : l.Advances 1 l') : r.Leads l 1 r' l' where
  advances := h
  taking := Nat.le_trans r.taking_le (Nat.le_add_right _ _)
  smaller := .inl Nat.one_pos
  reach := Nat.add_le_add r'.reach_le r.cost_le_reach

/-- Where no token is taken, a lower one follows. -/
theorem leads_here (htaking : r.taking ≤ r'.taking) (hrank : r'.rank < r.rank)
    (hreach : r'.reach + r.cost ≤ r.reach) : r.Leads l 0 r' l where
  advances := .refl l
  taking := by omega
  smaller := .inr hrank
  reach := by omega

/-- What a routine can do. -/
inductive Does (r : Routine) (l : Lookahead) : Action → Prop where
  | fail {error : ParseError} {left : Lookahead} (h : left.unread <:+ l.unread) :
      Does r l (.stop (.error error) left)
  | stop {e : Expr} {left : Lookahead} (h : left.unread <:+ l.unread)
      (hadvances : r.Proper → l.Advances r.taking left) : Does r l (.stop (.ok e) left)
  | become {n : Nat} {r' : Routine} {l' : Lookahead} (h : r.Leads l n r' l')
      (hproper : r.Proper → r'.Proper) :
      Does r l (.become r' l')
  /-- What is called takes no end of input, and what is done with its result is smaller and takes a
  token before it calls for an expression. -/
  | call {n : Nat} {inner : Routine} {l' : Lookahead} {next : Expr → Routine}
      (h : r.Leads l n inner l') (hinner : inner.Proper)
      (hnext : ∀ e, (r.Proper → (next e).Proper) ∧
        (0 < n + inner.taking ∨ (next e).rank < r.rank) ∧ (next e).reach = 0) :
      Does r l (.call inner l' next)

theorem does_looking {act : Token → Action}
    (h : l.peek.kind.fault? = none → r.Does l (act l.peek)) :
    r.Does l (l.looking act) := by
  unfold Lookahead.looking
  split
  · exact .fail List.suffix_rfl
  · next hsound => exact h hsound

theorem does_closing {closer : Kind} (ht : r.taking = 0) (hp : r.Proper → closer ≠ .eof)
    (hl : l.Advances 0 l') : r.Does l (l'.closing closer e) := by
  unfold Lookahead.closing Lookahead.looking
  split
  · exact .fail hl.suffix
  · dsimp only
    split
    · next hk =>
      refine .stop (l'.suffix_read.trans hl.suffix) fun hr => ?_
      rw [ht]
      exact (hl.trans (Lookahead.advances_read (hk ▸ hp hr))).mono (by omega)
    · exact .fail hl.suffix

/-- A call for an expression takes a token if it returns one. -/
theorem does_call {least : Nat} (h : r.Leads l n (expression least) l')
    (hproper : ∀ e, r.Proper → (next e).Proper) (hreach : ∀ e, (next e).reach = 0) :
    r.Does l (.call (expression least) l' next) :=
  .call h trivial fun e => ⟨hproper e, .inl (by simp), hreach e⟩

theorem does_operand (l : Lookahead) : operand.Does l (operand.body l) := by
  rw [body]
  refine does_looking fun hsound => ?_
  split
  · next op hop =>
    have hl : l.Advances 1 l.read.2 := Lookahead.advances_read fun h => by rw [h] at hop; cases hop
    exact does_call (leads_behind hl) (fun _ _ => trivial) fun _ => rfl
  · split
    · next hk => exact .stop l.suffix_read fun _ => Lookahead.advances_read (by simp [hk])
    · next hk => exact .stop l.suffix_read fun _ => Lookahead.advances_read (by simp [hk])
    · next hk =>
        exact .become (leads_behind (Lookahead.advances_read (by simp [hk]))) fun _ => trivial
    · next hk =>
        exact .become (leads_behind (Lookahead.advances_read (by simp [hk]))) fun _ => by simp
    · exact .fail l.suffix_read

theorem does_operators (least : Nat) (lhs : Expr) (l : Lookahead) :
    (operators least lhs).Does l ((operators least lhs).body l) := by
  rw [body]
  refine does_looking fun hsound => ?_
  have stay : (operators least lhs).Does l (.stop (.ok lhs) l) :=
    .stop List.suffix_rfl fun _ => .refl l
  split
  · next form hform =>
    split
    · have hl : l.Advances 1 l.read.2 :=
        Lookahead.advances_read fun h => by rw [h] at hform; cases hform
      exact .call (leads_behind hl) trivial fun _ => ⟨fun _ => trivial, .inl (by simp), rfl⟩
    · exact stay
  · split
    · next op hop =>
      split
      · have hl : l.Advances 1 l.read.2 :=
          Lookahead.advances_read fun h => by rw [h] at hop; cases hop
        exact does_call (leads_behind hl) (fun _ _ => trivial) fun _ => rfl
      · exact stay
    · exact stay

theorem does_opened (form : Postfixed) (item : Expr) (o : Origin) (l : Lookahead) :
    (opened form item o).Does l ((opened form item o).body l) := by
  have stay : l.Advances 0 l := .refl l
  have take {k : Kind} (hk : l.peek.kind = k) (h : k ≠ .eof) : l.Advances 0 l.read.2 :=
    (Lookahead.advances_read (hk ▸ h)).mono (by simp)
  cases form with
  | brace =>
    rw [body]
    refine does_looking fun hsound => ?_
    split
    · next hk => exact .stop l.suffix_read fun _ => take hk (by simp)
    · exact does_call (leads_here (by simp) (by simp) (by simp)) (fun _ _ => trivial) fun _ => rfl
  | bracket =>
    rw [body]
    refine does_looking fun hsound => ?_
    split
    · next hk => exact does_closing rfl (by simp) (take hk (by simp))
    · split
      · next hk => exact .stop l.suffix_read fun _ => take hk (by simp)
      · exact .fail List.suffix_rfl
  | call =>
    exact .call (leads_here (by simp) (by simp) (by simp)) (by simp) fun _ =>
      ⟨fun _ => trivial, .inr (by simp), rfl⟩
  | optional => exact .stop List.suffix_rfl fun _ => stay

theorem does_body (r : Routine) (l : Lookahead) : r.Does l (r.body l) := by
  have stay : l.Advances 0 l := .refl l
  have comma (hk : l.peek.kind = .mark .comma) : l.Advances 1 l.read.2 :=
    Lookahead.advances_read (by simp [hk])
  cases r with
  | expression least =>
    exact .call (leads_here (by simp) (by simp) (by simp)) trivial fun _ =>
      ⟨fun _ => trivial, .inl (by simp), rfl⟩
  | operand => exact does_operand l
  | operators least lhs => exact does_operators least lhs l
  | opened form item o => exact does_opened form item o l
  | keyed item key o => exact does_closing rfl (by simp) stay
  | array o =>
    rw [body]
    refine does_looking fun hsound => ?_
    split
    · next hk =>
      exact .stop l.suffix_read fun _ => (Lookahead.advances_read (by simp [hk])).mono (by simp)
    · exact .become (leads_here (by simp) (by simp) (by simp)) fun _ => trivial
  | elements done o =>
    exact does_call (leads_here (by simp) (by simp) (by simp)) (fun _ _ => trivial) fun _ => rfl
  | behindElement done o =>
    rw [body]
    refine does_looking fun hsound => ?_
    split
    · next hk => exact .become (leads_behind (comma hk)) fun _ => trivial
    · exact does_closing rfl (by simp) stay
  | items closer done o =>
    rw [body]
    refine does_looking fun hsound => ?_
    split
    · exact does_closing rfl id stay
    · exact does_call (leads_here (by simp) (by simp) (by simp)) (fun _ => id) fun _ => rfl
  | behindItem closer done o =>
    rw [body]
    refine does_looking fun hsound => ?_
    split
    · next hk => exact .become (leads_behind (comma hk)) id
    · exact does_closing rfl id stay
  | finished e => exact .stop List.suffix_rfl fun _ => stay

theorem does_of_body {act : Action} (h : r.body l = act) : r.Does l act := h ▸ r.does_body l

/-! ## Calls that come back -/

/-- What a routine leaves is left of what was to be taken. -/
theorem Returns.suffix {d : Nat} {result : Except ParseError Expr} (h : r.Returns d l result left) :
    left.unread <:+ l.unread := by
  induction h with
  | stop _ h =>
    cases does_of_body h with
    | fail h | stop h => exact h
  | become _ h _ ih =>
    cases does_of_body h with
    | become h => exact ih.trans h.advances.suffix
  | fail _ h _ ih =>
    cases does_of_body h with
    | call h => exact ih.trans h.advances.suffix
  | next _ h _ _ ihinner ihrest =>
    cases does_of_body h with
    | call h => exact (ihrest.trans ihinner).trans h.advances.suffix

/-- A routine that returns an expression has taken as many tokens as it has to, and no end of
input. -/
theorem Returns.advances {d : Nat} (h : r.Returns d l (.ok e) left) (hr : r.Proper) :
    l.Advances r.taking left := by
  generalize hresult : Except.ok e = result at h
  induction h generalizing e with
  | stop _ h =>
    subst hresult
    cases does_of_body h with
    | stop _ hadvances => exact hadvances hr
  | become _ h _ ih =>
    cases does_of_body h with
    | become h hproper => exact (h.advances.trans (ih (hproper hr) hresult)).mono h.taking
  | fail => cases hresult
  | next _ h _ _ ihinner ihrest =>
    cases does_of_body h with
    | call h hinner hnext =>
      have hfirst := (h.advances.trans (ihinner hinner rfl)).mono h.taking
      exact (hfirst.trans (ihrest ((hnext _).1 hr) hresult)).mono (by omega)

/-- Every routine returns. The calls for expressions that are open at a time are not more than the
tokens before the next end of input, and one. -/
theorem exists_returns (r : Routine) (l : Lookahead) :
    ∃ result left, r.Returns (l.ahead + r.reach) l result left := by
  -- what is called starts behind a token, or comes before its caller in the order of the routines
  induction hm : 5 * l.ahead + r.rank using Nat.strongRecOn generalizing r l with
  | ind m ih =>
    have hdoes := r.does_body l
    have hcost := r.cost_le_reach
    generalize hbody : r.body l = act at hdoes
    cases hdoes with
    | fail | stop => exact ⟨_, _, .stop (by omega) hbody⟩
    | @become n r' l' h =>
      have hahead := h.advances.ahead_le
      have hreach := h.reach
      have hsmaller := h.smaller
      have hrank := r'.rank_le
      obtain ⟨result, left, hreturns⟩ := ih _ (by omega) r' l' rfl
      exact ⟨result, left, .become (by omega) hbody hreturns⟩
    | @call n inner l' next h hinner hnext =>
      have hahead := h.advances.ahead_le
      have hreach := h.reach
      have hsmaller := h.smaller
      have hrank := inner.rank_le
      obtain ⟨result, between, hreturns⟩ := ih _ (by omega) inner l' rfl
      cases result with
      | error error => exact ⟨_, between, .fail (by omega) hbody hreturns⟩
      | ok e =>
        obtain ⟨-, hless, hzero⟩ := hnext e
        have htaken := (hreturns.advances hinner).ahead_le
        have hrank' := (next e).rank_le
        obtain ⟨result, left, hrest⟩ := ih _ (by omega) (next e) between rfl
        exact ⟨result, left, .next (d := l.ahead + r.reach - r.cost) (by omega) hbody
          (hreturns.mono (by omega)) (hrest.mono (by omega))⟩

/-! ## As many calls as can be open -/

theorem Returns.cost_le {d : Nat} {result : Except ParseError Expr}
    (h : r.Returns d l result left) :
    r.cost ≤ d := by
  cases h <;> omega

theorem Returns.of_become {d : Nat} {result : Except ParseError Expr}
    (h : r.Returns d l result left) (hbody : r.body l = .become r' l') :
    ∃ d', d' + r.cost ≤ d ∧ r'.Returns d' l' result left := by
  cases h with
  | become hd h hrest =>
    obtain ⟨rfl, rfl⟩ := Action.become.inj (h.symm.trans hbody)
    exact ⟨_, hd, hrest⟩
  | stop _ h | fail _ h | next _ h => cases h.symm.trans hbody

theorem Returns.of_call {d : Nat} {result : Except ParseError Expr} (h : r.Returns d l result left)
    (hbody : r.body l = .call inner l' next) :
    ∃ d' result' left', d' + r.cost ≤ d ∧ inner.Returns d' l' result' left' := by
  cases h with
  | fail hd h hinner | next hd h hinner =>
    obtain ⟨rfl, rfl, -⟩ := Action.call.inj (h.symm.trans hbody)
    exact ⟨_, _, _, hd, hinner⟩
  | stop _ h | become _ h => cases h.symm.trans hbody

/-- An expression that is begun with an opening parenthesis, and whose first item is begun likewise,
and so on up to the end of the input, needs as many open calls as `exists_returns` allows for. -/
theorem Returns.lt_of_parentheses {d least : Nat} {result : Except ParseError Expr}
    (h : (expression least).Returns d l result left)
    (hl : ∀ t ∈ l.unread, t.kind = .mark .leftParenthesis) : l.ahead < d := by
  obtain ⟨unread, finish⟩ := l
  induction unread generalizing least d result left with
  | nil => exact h.cost_le
  | cons t ts ih =>
    obtain ⟨ht, hts⟩ := List.forall_mem_cons.1 hl
    have hitem : (Lookahead.peek ⟨ts, finish⟩).kind = .mark .leftParenthesis ∨
        (Lookahead.peek ⟨ts, finish⟩).kind = .eof := by
      cases ts with
      | nil => exact .inr rfl
      | cons u us => exact .inl (hts u (by simp))
    -- the parenthesis is taken, and an item called for
    have htaken : operand.body ⟨t :: ts, finish⟩ =
        .become (items (.mark .rightParenthesis) [] t.origin) ⟨ts, finish⟩ := by
      simp [body, Lookahead.looking, ht, Kind.fault?, Kind.unary?, Lookahead.read]
    have hcalled : (items (.mark .rightParenthesis) [] t.origin).body ⟨ts, finish⟩ =
        .call (expression 0) ⟨ts, finish⟩ fun e =>
          behindItem (.mark .rightParenthesis) ([] ++ [e]) t.origin := by
      rcases hitem with hk | hk <;> simp [body, Lookahead.looking, hk, Kind.fault?]
    obtain ⟨d₁, _, _, hd₁, h₁⟩ := h.of_call rfl
    obtain ⟨d₂, hd₂, h₂⟩ := h₁.of_become htaken
    obtain ⟨d₃, _, _, hd₃, h₃⟩ := h₂.of_call hcalled
    have hinner := ih h₃ hts
    have hahead : Lookahead.ahead ⟨t :: ts, finish⟩ = Lookahead.ahead ⟨ts, finish⟩ + 1 := by
      simp [Lookahead.ahead, ht]
    have hcost : (expression least).cost = 1 := rfl
    omega

end Routine

end DocExpr
