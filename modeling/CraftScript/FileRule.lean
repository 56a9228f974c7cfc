import CraftScript.Text.Basic

/-! Which files hold scripts, told by name alone. Letters compare without regard to ASCII case. -/
namespace CraftScript

structure FileRule where
  beginnings : List String := ["recipes", "entity", "craftrecipe"]
  ending : String := ".txt"
  excluded : List String := ["test", "dbg"]
deriving DecidableEq, Repr

namespace FileRule

def accepts (rule : FileRule) (name : String) : Bool :=
  let name := Text.asciiLower name.toList
  let folded (s : String) : Text := Text.asciiLower s.toList
  (folded rule.ending).isSuffixOf name &&
    rule.beginnings.any (fun s => (folded s).isPrefixOf name) &&
    !rule.excluded.any (fun s => Text.occurs (folded s) name)

end FileRule

end CraftScript
