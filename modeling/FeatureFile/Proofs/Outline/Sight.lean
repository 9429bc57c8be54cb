/-
# FeatureFile.Proofs.Outline.Sight — what is seen of an outline

Two outlines are compared by what is seen of their nodes: the number of each, the node that it
stands in, its kind, and something about its children. A `View` says how numbers are read and what
is looked at in the children. The sights of the nodes below an open node (`OpenNode.below`) grow
only when a node is closed into it; tokens do not change them.

Of the children one mostly wants the significant ones (`Element.significant`): the nodes by number
and the tokens that are no trivia.
-/

import FeatureFile.Outline
import FeatureFile.Proofs.Outline.Likeness

namespace FeatureFile

/-! ## §A Views -/

/-- What is seen of a node of an outline. -/
structure Sight (β : Type) where
  /-- The number of the node that it stands in. -/
  parent : Option Nat
  id : Nat
  kind : NodeKind
  seen : β
  deriving DecidableEq, Repr

/-- **`View β`** — how an outline is looked at: as which number the number of a node is read, and
what is seen of the children of a node of some kind. -/
structure View (β : Type) where
  number : Nat → Nat
  look : NodeKind → List Element → β

namespace View

variable {β : Type}

/-- What a view shows of a node. -/
def sight (v : View β) (x : Entry) : Sight β :=
  ⟨x.parent.map v.number, v.number x.node.id, x.node.kind, v.look x.node.kind x.node.children⟩

end View

/-! ## §B Significant children -/

/-- A child of a node: a node by its number, or what is seen of a token. -/
inductive Child (α : Type) where
  | node (id : Nat)
  | token (seen : α)
  deriving DecidableEq, Repr

namespace Element

variable {α : Type}

/-- Whether the element is trivia. -/
def isTrivia (e : Element) : Bool := e.isToken TokenKind.isTrivia

@[simp] theorem isTrivia_token (i : Nat) (t : Token) : (token i t).isTrivia = t.isTrivia := rfl

/-- A child by its number or by what is seen of it. -/
def child (number : Nat → Nat) (see : Nat → Token → α) : Element → Child α
  | token i t => .token (see i t)
  | node id _ _ _ => .node (number id)

/-- **`significant number see es`** — the nodes among children, and the tokens that are no
trivia. -/
def significant (number : Nat → Nat) (see : Nat → Token → α) (es : List Element) :
    List (Child α) :=
  (es.filter fun e => !e.isTrivia).map (child number see)

theorem significant_append (number : Nat → Nat) (see : Nat → Token → α) (a b : List Element) :
    significant number see (a ++ b) = significant number see a ++ significant number see b := by
  rw [significant, List.filter_append, List.map_append]
  rfl

theorem significant_of_trivia (number : Nat → Nat) (see : Nat → Token → α) {es : List Element}
    (h : ∀ e ∈ es, e.isTrivia = true) : significant number see es = [] := by
  rw [significant, List.filter_eq_nil_iff.mpr]
  · rfl
  · intro e he
    simp [h e he]

theorem significant_token (number : Nat → Nat) (see : Nat → Token → α) (i : Nat) {t : Token}
    (h : t.isTrivia = false) : significant number see [.token i t] = [.token (see i t)] := by
  simp [significant, h, child]

theorem significant_close (number : Nat → Nat) (see : Nat → Token → α) (n : OpenNode) :
    significant number see [n.close] = [.node (number n.id)] := rfl

theorem node?_of_isTrivia {e : Element} (h : e.isTrivia = true) : e.node? = none := by
  cases e with
  | token => rfl
  | node => cases h

end Element

/-! ## §C Below an open node -/

namespace OpenNode

variable {β : Type}

@[simp] theorem children_fill (n : OpenNode) (w : List Element) :
    (n.fill w).children = n.children ++ w.reverse := by
  simp [children, fill]

/-- What a view shows of the nodes below an open node. -/
def below (v : View β) (n : OpenNode) : List (Sight β) :=
  (Element.entriesOf (some n.id) n.children).map v.sight

/-- What a view shows of the children of an open node. -/
def seen (v : View β) (n : OpenNode) : β := v.look n.kind n.children

theorem below_push_token (v : View β) (n : OpenNode) (i : Nat) (t : Token) :
    (n.push (.token i t)).below v = n.below v := by
  rw [below, children_push, Element.entriesOf_append]
  exact congrArg _ (List.append_nil _)

theorem below_fill (v : View β) (n : OpenNode) {w : List Element}
    (h : ∀ e ∈ w, e.isTrivia = true) : (n.fill w).below v = n.below v := by
  have hw : ∀ e ∈ w.reverse, e.node? = none := fun e he =>
    Element.node?_of_isTrivia (h e (List.mem_reverse.mp he))
  rw [below, children_fill, Element.entriesOf_append, Element.entriesOf_of_tokens _ hw,
    List.append_nil]
  rfl

/-- Closing a node shows it, with the number of the node that it stands in, and all below it. -/
theorem below_push_close (v : View β) (m n : OpenNode) :
    (m.push n.close).below v =
      m.below v ++ ⟨some (v.number m.id), v.number n.id, n.kind, n.seen v⟩ :: n.below v := by
  rw [below, children_push, Element.entriesOf_append, List.map_append]
  refine congrArg (m.below v ++ ·) ?_
  show ((n.close.entries (some m.id)) ++ []).map v.sight = _
  rw [List.append_nil]
  rfl

end OpenNode

end FeatureFile
