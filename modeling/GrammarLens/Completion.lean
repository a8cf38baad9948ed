import GrammarLens.Completion.Context
import GrammarLens.Completion.Item
import GrammarLens.Index.Attributes
import GrammarLens.Index.Tags
import GrammarLens.Text.Position

/-!
Contract: completion at a cursor.

Owns: the answer to a completion request from the attribute and tag indexes. The first of
these that applies decides, even when it offers nothing: a trigger at the end of the text, a
comma inside an owned bracket, and the name being typed.
-/

namespace GrammarLens.Completion

/-- The items that a trigger asks for. -/
def Trigger.items (attributes : AttributeIndex) (tags : TagIndex) (before : Text) :
    Trigger → List Item
  | .tags start => tagItems (tags.starting start)
  | .attributes object => attributeItems (attributes.attributesFor object) false
  | .attributesStarting object start =>
    attributeItems ((attributes.attributesFor object).filter fun name => start.isPrefixOf name)
      false
  | .bracket object =>
    attributeItems (attributes.attributesFor object) (before.getLast? = some '[')

/-- The items after a comma: a new line, and the attributes of the enclosing object. -/
def continuationItems (attributes : AttributeIndex) (object : Text) : List Item :=
  Item.newLine :: attributeItems (attributes.attributesFor object) false

/-- The items for the name being typed: the objects that start with it. -/
def objectItems (attributes : AttributeIndex) (typed : Text) : List Item :=
  if typed.isEmpty then [] else attributeItems (attributes.objectsStarting typed) false

/-- The completion items at an offset, clamped to the text. -/
def complete (settings : Settings) (attributes : AttributeIndex) (tags : TagIndex)
    (text : Text) (offset : Int) : Except SettingsFault (List Item) := do
  let context ← Context.build settings text (text.clampOffset offset)
  match trigger? context.before with
  | some trigger => return trigger.items attributes tags context.before
  | none =>
    match context.continuing? with
    | some object => return continuationItems attributes object
    | none =>
      let start ← settings.wordWindow.start context.offset
      return objectItems attributes (typedRun (text.slice start context.offset))

end GrammarLens.Completion
