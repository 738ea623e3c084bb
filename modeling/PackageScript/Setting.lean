import PackageScript.Selector
/-! Settings: named lists of strings that depend on the active tags. -/
namespace PackageScript

/-- The strings that apply under one selector. -/
structure Binding where
  selector : Selector
  strings : List String
  deriving DecidableEq, Repr

/-- A name with its bindings in the order in which their selectors were first bound. -/
structure Setting where
  name : String
  bindings : List Binding := []
  deriving DecidableEq, Repr

namespace Setting

def bindIn (selector : Selector) (strings : List String) : List Binding → List Binding
  | [] => [⟨selector, strings⟩]
  | b :: rest =>
    if b.selector = selector then ⟨b.selector, b.strings ++ strings⟩ :: rest
    else b :: bindIn selector strings rest

def bind (s : Setting) (selector : Selector) (strings : List String) : Setting :=
  ⟨s.name, bindIn selector strings s.bindings⟩

/-- A setting with nothing but a fallback. -/
def plain (name : String) (strings : List String) : Setting :=
  ⟨name, [⟨.fallback, strings⟩]⟩

def get? (s : Setting) (selector : Selector) : Option (List String) :=
  (s.bindings.find? (fun b => b.selector = selector)).map Binding.strings

/-- The strings of the fallback, if it is the only binding. -/
def unconditional? (s : Setting) : Option (List String) :=
  match s.bindings with
  | [⟨.fallback, strings⟩] => some strings
  | _ => none

def isUnconditional (s : Setting) : Bool :=
  s.unconditional?.isSome

end Setting

end PackageScript
