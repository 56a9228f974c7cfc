import CraftScript.Text.Basic

/-! What can be wrong with a script without stopping its reading, and results that carry such
issues along. Issues stand in the order in which the reading met them. -/
namespace CraftScript

inductive Keyword where
  | craftRecipe
  | module
  | xuiSkin
  | entity
  | component
  | face
deriving DecidableEq, Repr

def Keyword.word : Keyword → String
  | craftRecipe => "craftRecipe"
  | module => "module"
  | xuiSkin => "xuiSkin"
  | entity => "entity"
  | component => "component"
  | face => "face"

inductive Issue where
  | unclosedBlock (keyword : Keyword) (name : String)
  | unrecognizedLine (line : String)
  | missingSection (recipe part : String)
  | unclosedComment (offset : Nat)
deriving DecidableEq, Repr

def Issue.message : Issue → String
  | unclosedBlock keyword name =>
    keyword.word ++ " block '" ++ name ++ "' never reaches balanced closure and was dropped"
  | unrecognizedLine line => "Unrecognized line skipped: '" ++ line ++ "'"
  | missingSection recipe part =>
    "Recipe '" ++ recipe ++ "' has no '" ++ part ++ "' section, using an empty list"
  | unclosedComment offset =>
    "Block comment opened at byte " ++ toString offset ++
      " is never closed, dropping the remaining text"

structure WithIssues (α : Type) where
  value : α
  issues : List Issue
deriving Repr

namespace WithIssues

instance : Monad WithIssues where
  pure a := ⟨a, []⟩
  bind x f :=
    let y := f x.value
    ⟨y.value, x.issues ++ y.issues⟩

instance : LawfulMonad WithIssues := LawfulMonad.mk' WithIssues
  (by intro α x; cases x; simp [Functor.map])
  (by intro α β a f; simp [bind, pure])
  (by intro α β γ x f g; simp [bind])

def note (issue : Issue) : WithIssues Unit :=
  ⟨(), [issue]⟩

@[simp] theorem value_pure {α : Type} (a : α) : (pure a : WithIssues α).value = a := rfl

@[simp] theorem issues_pure {α : Type} (a : α) : (pure a : WithIssues α).issues = [] := rfl

@[simp] theorem value_bind {α β : Type} (x : WithIssues α) (f : α → WithIssues β) :
    (x >>= f).value = (f x.value).value := rfl

@[simp] theorem issues_bind {α β : Type} (x : WithIssues α) (f : α → WithIssues β) :
    (x >>= f).issues = x.issues ++ (f x.value).issues := rfl

@[simp] theorem value_note (issue : Issue) : (note issue).value = () := rfl

@[simp] theorem issues_note (issue : Issue) : (note issue).issues = [issue] := rfl

@[simp] theorem value_map {α β : Type} (f : α → β) (x : WithIssues α) :
    (f <$> x).value = f x.value := rfl

@[simp] theorem issues_map {α β : Type} (f : α → β) (x : WithIssues α) :
    (f <$> x).issues = x.issues := by
  simp [Functor.map]

@[simp] theorem value_mapM {α β : Type} (f : α → WithIssues β) (xs : List α) :
    (xs.mapM f).value = xs.map fun x => (f x).value := by
  induction xs with
  | nil => rfl
  | cons x xs ih => simp [List.mapM_cons, ih]

@[simp] theorem issues_mapM {α β : Type} (f : α → WithIssues β) (xs : List α) :
    (xs.mapM f).issues = xs.flatMap fun x => (f x).issues := by
  induction xs with
  | nil => rfl
  | cons x xs ih => simp [List.mapM_cons, ih]

end WithIssues

end CraftScript
