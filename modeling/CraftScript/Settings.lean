import CraftScript.Text.Basic

/-! The two settings that shape what a script is read as. -/
namespace CraftScript

structure Settings where
  defaultModule : String := "Base"
  wildcardFluidLabel : String := "Any fluid container"
deriving DecidableEq, Repr

namespace Settings

instance : Inhabited Settings := ⟨{}⟩

def qualify (settings : Settings) (id : String) : String :=
  if id.toList.contains '.' then id else settings.defaultModule ++ "." ++ id

def wildcard (settings : Settings) : String :=
  settings.qualify "*"

end Settings

end CraftScript
