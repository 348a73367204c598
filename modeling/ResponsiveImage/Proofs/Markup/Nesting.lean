import ResponsiveImage.Markup.Element

/-!
# The order of nested elements

Listed each before what is inside it, the elements into which events nest are the elements that the
events open, in their order (`tagsAll_elementsOf`).  The stack of open elements has such a listing
too: opening an element adds it at the end, and closing, whatever it closes, changes nothing.
-/

namespace ResponsiveImage.Markup

open Text

/-- The name of an element, and the position at which it was met. -/
abbrev Met := List Char × Position

mutual

/-- The tags of an element and of all inside it, each before those inside it. -/
def Element.tags : Element → List Met
  | .mk name position children => (name, position) :: tagsAll children

def tagsAll : List Element → List Met
  | [] => []
  | e :: es => e.tags ++ tagsAll es

end

@[simp] theorem tagsAll_append (xs ys : List Element) :
    tagsAll (xs ++ ys) = tagsAll xs ++ tagsAll ys := by
  induction xs with
  | nil => rfl
  | cons x xs ih => rw [List.cons_append, tagsAll, tagsAll, ih, List.append_assoc]

theorem tagsAll_reverse_cons (e : Element) (es : List Element) :
    tagsAll (e :: es).reverse = tagsAll es.reverse ++ e.tags := by
  rw [List.reverse_cons, tagsAll_append, tagsAll, tagsAll, List.append_nil]

/-! ## The stack of open elements -/

namespace OpenElement

/-- The tags of an open element and of what is inside it so far. -/
def tags (o : OpenElement) : List Met := (o.name, o.position) :: tagsAll o.children.reverse

theorem tags_close (o : OpenElement) : o.close.tags = o.tags := by
  rw [close, Element.tags, tags]

theorem tags_cons_children (o : OpenElement) (e : Element) :
    tags { o with children := e :: o.children } = o.tags ++ e.tags := by
  simp only [tags]
  rw [tagsAll_reverse_cons, List.cons_append]

end OpenElement

/-- The tag of an event, if it opens an element. -/
def Event.tag? : Event → Option Met
  | .opened name _ position => some (name, position)
  | .closed _ => none

namespace Nesting

/-- The tags of open elements, given from the innermost to the outermost. -/
def openTags : List OpenElement → List Met
  | [] => []
  | o :: os => openTags os ++ o.tags

/-- The tags met so far. -/
def tags (s : Nesting) : List Met := tagsAll s.finished.reverse ++ openTags s.openElements

theorem tags_attach (s : Nesting) (e : Element) : (s.attach e).tags = s.tags ++ e.tags := by
  rw [attach]
  split
  · rename_i h
    rw [tags, tags, tagsAll_reverse_cons, h, openTags, List.append_nil, List.append_nil]
  · rename_i o os h
    rw [tags, tags, h, openTags, openTags, OpenElement.tags_cons_children]
    simp only [List.append_assoc]

theorem tags_enter (s : Nesting) (name : List Char) (position : Position) :
    (s.enter name position).tags = s.tags ++ [(name, position)] := by
  rw [enter, tags, tags, openTags, ← List.append_assoc]
  rfl

theorem tags_leave (s : Nesting) : s.leave.tags = s.tags := by
  rw [leave]
  split
  · rfl
  · rename_i o os h
    rw [tags_attach, OpenElement.tags_close, tags, tags, h, openTags, List.append_assoc]

theorem tags_leaveMany (n : Nat) (s : Nesting) : (leaveMany n s).tags = s.tags := by
  induction n generalizing s with
  | zero => rfl
  | succ n ih => rw [leaveMany, ih, tags_leave]

theorem tags_leaveNamed (s : Nesting) (name : List Char) : (s.leaveNamed name).tags = s.tags := by
  rw [leaveNamed]
  split
  · exact tags_leaveMany _ s
  · rfl

theorem tags_redundant (s : Nesting) (names : List (List Char)) :
    tags { s with redundant := names } = s.tags := rfl

theorem tags_add (s : Nesting) (e : Event) : (s.add e).tags = s.tags ++ e.tag?.toList := by
  cases e with
  | opened name selfClosing position =>
    cases selfClosing with
    | true => rw [add, tags_leaveNamed, tags_enter, Event.tag?, Option.toList_some]
    | false =>
      simp only [add]
      split
      · rw [tags_redundant, tags_leaveNamed, tags_enter, Event.tag?, Option.toList_some]
      · rw [tags_enter, Event.tag?, Option.toList_some]
  | closed name =>
    rw [add, Event.tag?, Option.toList_none, List.append_nil]
    split
    · rfl
    · exact tags_leaveNamed s name

theorem tags_foldl_add (es : List Event) (s : Nesting) :
    (es.foldl add s).tags = s.tags ++ es.filterMap Event.tag? := by
  induction es generalizing s with
  | nil => rw [List.foldl_nil, List.filterMap_nil, List.append_nil]
  | cons e es ih =>
    rw [List.foldl_cons, ih, tags_add, List.append_assoc, List.filterMap_cons]
    cases e.tag? <;> rfl

/-! ## Closing what is open -/

theorem length_openElements_attach (s : Nesting) (e : Element) :
    (s.attach e).openElements.length = s.openElements.length := by
  rw [attach]
  split
  · rfl
  · rename_i h
    rw [h]
    rfl

theorem length_openElements_leave (s : Nesting) :
    s.leave.openElements.length = s.openElements.length - 1 := by
  rw [leave]
  split
  · rename_i h
    rw [h]
    rfl
  · rename_i h
    rw [length_openElements_attach, h]
    rfl

theorem openElements_leaveMany {n : Nat} {s : Nesting} (h : s.openElements.length ≤ n) :
    (leaveMany n s).openElements = [] := by
  induction n generalizing s with
  | zero => exact List.length_eq_zero_iff.mp (Nat.le_zero.mp h)
  | succ n ih =>
    rw [leaveMany]
    apply ih
    rw [length_openElements_leave]
    exact Nat.sub_le_of_le_add h

theorem tagsAll_finish (s : Nesting) : tagsAll s.finish = s.tags := by
  have hopen := openElements_leaveMany (Nat.le_refl s.openElements.length)
  rw [← tags_leaveMany s.openElements.length s, tags, hopen, openTags, List.append_nil, finish]

end Nesting

/-- **The elements of a document, each listed before what is inside it, are those that its events
open, in order.** -/
theorem tagsAll_elementsOf (es : List Event) : tagsAll (elementsOf es) = es.filterMap Event.tag? := by
  rw [elementsOf, Nesting.tagsAll_finish, Nesting.tags_foldl_add]
  rfl

end ResponsiveImage.Markup
