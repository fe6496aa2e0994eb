import AssetAudit.Category
import AssetAudit.Naming.Style

/-!
# Name patterns

What the whole bare name of an asset has to look like: the grammar of a naming style, followed by
the file suffix that its category needs.  Both parts are expressions, so a pattern is their
sequence, and its text is what a user could type into any tool that knows regular expressions.
-/

namespace AssetAudit
namespace Naming

open Expression CharClass

/-- The extensions that the suffix of a category allows where any extension will do: two to six
small letters or digits. -/
def anyExtension : Expression :=
  between (.one (lower.union digit)) 2 6

/-- What follows the bare name in the file name of an asset. -/
def suffix : Category → Expression
  | .folder => .empty
  | .prefab => text ".prefab".toList
  | .script => .seq (.literal '.') (.either (text "cs".toList) (text "dll".toList))
  | .scene => text ".unity".toList
  | .texture | .sound | .model | .material | .animation => .seq (.literal '.') anyExtension

/-- The suffix as a pattern text. -/
def suffixText (c : Category) : String :=
  (suffix c).pattern

/-- The names that a style allows for a category. -/
structure Pattern where
  style : Style
  category : Category
  deriving DecidableEq, Repr

namespace Pattern

/-- The pattern that a style selector chooses for a category. -/
def ofSelector (selector : UInt8) (category : Category) : Pattern :=
  ⟨Style.ofSelector selector, category⟩

/-- The whole name: what the style allows, then what the category needs. -/
def expression (p : Pattern) : Expression :=
  .seq p.style.grammar (suffix p.category)

/-- Does the pattern allow the whole bare name? -/
def accepts (p : Pattern) (name : String) : Bool :=
  p.expression.accepts name.toList

/-- The pattern as a regular expression, anchored at both ends. -/
def regularExpression (p : Pattern) : String :=
  p.style.grammarText ++ suffixText p.category ++ "$"

/-- A name in the style of the pattern. -/
def sample (p : Pattern) : String := p.style.sample

/-- A name is accepted exactly when the language of the style, followed by the language of the
suffix, holds it. -/
theorem accepts_iff (p : Pattern) (name : String) :
    p.accepts name = true ↔
      ∃ stem rest, name.toList = stem ++ rest ∧ p.style.grammar.Matches stem ∧
        (suffix p.category).Matches rest := by
  simp only [accepts, Expression.accepts_iff, expression, Matches]

end Pattern

end Naming
end AssetAudit
