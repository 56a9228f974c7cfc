import CraftScript.Construction
import Mathlib.Data.List.Forall2

/-! Differences that reading does not see. Two texts may differ where no reader looks: in the returns
before newlines, or in line comments. What the parts of bodies and modules have to keep of such a
relation is said once, and whole bodies and constructions are then read alike. -/
namespace CraftScript

section Rel

variable {α β γ δ : Type} {same : α → β → Prop} {same' : γ → δ → Prop}

theorem rel_bind {x : Option α} {y : Option β} {f : α → Option γ} {g : β → Option δ}
    (first : Option.Rel same x y) (second : ∀ a b, same a b → Option.Rel same' (f a) (g b)) :
    Option.Rel same' (x >>= f) (y >>= g) := by
  cases first with
  | none => exact .none
  | some alike => exact second _ _ alike

theorem rel_map {x : Option α} {y : Option β} {f : α → γ} {g : β → δ}
    (first : Option.Rel same x y) (second : ∀ a b, same a b → same' (f a) (g b)) :
    Option.Rel same' (x.map f) (y.map g) := by
  cases first with
  | none => exact .none
  | some alike => exact .some (second _ _ alike)

theorem rel_mono {again : α → β → Prop} {x : Option α} {y : Option β} (known : Option.Rel same x y)
    (each : ∀ a b, same a b → again a b) : Option.Rel again x y := by
  cases known with
  | none => exact .none
  | some alike => exact .some (each _ _ alike)

theorem rel_guard (holds : Prop) [Decidable holds] :
    Option.Rel (· = ·) (guard holds : Option Unit) (guard holds) := by
  by_cases known : holds
  · rw [guard, if_pos known]
    exact .some rfl
  · rw [guard, if_neg known]
    exact .none

theorem map_eq_of_forall₂ {xs : List α} {ys : List β} {f : α → γ} {g : β → γ}
    (alike : List.Forall₂ same xs ys) (agree : ∀ a b, same a b → f a = g b) :
    xs.map f = ys.map g := by
  induction alike with
  | nil => rfl
  | cons first _ ih => rw [List.map_cons, List.map_cons, agree _ _ first, ih]

end Rel

theorem Dict.rel_foldl_insert {α : Type} {same : α → α → Prop} {xs ys : List (String × α)}
    (alike : List.Forall₂ (fun a b => a.1 = b.1 ∧ same a.2 b.2) xs ys) {dict dict' : Dict α}
    (start : ∀ name, Option.Rel same (dict.get? name) (dict'.get? name)) (name : String) :
    Option.Rel same ((xs.foldl (fun dict entry => dict.insert entry.1 entry.2) dict).get? name)
      ((ys.foldl (fun dict entry => dict.insert entry.1 entry.2) dict').get? name) := by
  induction alike generalizing dict dict' with
  | nil => exact start name
  | cons first _ ih =>
    apply ih
    intro other
    rw [get?_insert, get?_insert, first.1]
    split
    · exact .some first.2
    · exact start other

namespace WithIssues

variable {α β γ δ : Type} {same : α → β → Prop} {same' : γ → δ → Prop}

def Agree (same : α → β → Prop) (x : WithIssues α) (y : WithIssues β) : Prop :=
  x.issues = y.issues ∧ same x.value y.value

theorem eq_of_agree {x y : WithIssues α} (agree : Agree (· = ·) x y) : y = x := by
  obtain ⟨value, issues⟩ := x
  obtain ⟨value', issues'⟩ := y
  obtain ⟨rfl, rfl⟩ := agree
  rfl

theorem agree_refl (x : WithIssues α) : Agree (· = ·) x x :=
  ⟨rfl, rfl⟩

theorem agree_pure {a : α} {b : β} (alike : same a b) : Agree same (pure a) (pure b) :=
  ⟨rfl, alike⟩

theorem agree_bind_value {x : WithIssues α} {y : WithIssues β} {f : α → WithIssues γ}
    {g : β → WithIssues δ} (first : x.issues = y.issues)
    (second : Agree same' (f x.value) (g y.value)) : Agree same' (x >>= f) (y >>= g) := by
  obtain ⟨issues, values⟩ := second
  refine ⟨?_, values⟩
  rw [issues_bind, issues_bind, first, issues]

theorem agree_bind {x : WithIssues α} {y : WithIssues β} {f : α → WithIssues γ}
    {g : β → WithIssues δ} (first : Agree same x y)
    (second : ∀ a b, same a b → Agree same' (f a) (g b)) : Agree same' (x >>= f) (y >>= g) :=
  agree_bind_value first.1 (second _ _ first.2)

theorem agree_mapM {f : α → WithIssues γ} {g : β → WithIssues γ} {xs : List α} {ys : List β}
    (alike : List.Forall₂ same xs ys) (each : ∀ a ∈ xs, ∀ b ∈ ys, same a b → g b = f a) :
    Agree (· = ·) (xs.mapM f) (ys.mapM g) := by
  induction alike with
  | nil => exact agree_refl _
  | @cons a b xs ys first _ ih =>
    have later := ih fun a member b member' => each a (by simp [member]) b (by simp [member'])
    rw [List.mapM_cons, List.mapM_cons, each a (by simp) b (by simp) first, eq_of_agree later]
    exact agree_refl _

end WithIssues

open WithIssues

variable {same : Text → Text → Prop}

abbrev AlikeParts (same : Text → Text → Prop) (a b : Text × Text) : Prop :=
  same a.1 b.1 ∧ same a.2 b.2

abbrev AlikeRest (same : Text → Text → Prop) {α : Type} (a b : α × Text) : Prop :=
  a.1 = b.1 ∧ same a.2 b.2

namespace Block

def Alike (same : Text → Text → Prop) (block block' : Block) : Prop :=
  block.name = block'.name ∧ same block.body block'.body

def AlikePieces (same : Text → Text → Prop) (pieces pieces' : List (Piece Block)) : Prop :=
  List.Forall₂ (Alike same) (pieces.filterMap Piece.value?) (pieces'.filterMap Piece.value?) ∧
    same (Piece.withoutFirst pieces) (Piece.withoutFirst pieces')

theorem rel_bodies {blocks blocks' : List Block} (alike : List.Forall₂ (Alike same) blocks blocks')
    (name : String) :
    Option.Rel same ((bodies blocks).get? name) ((bodies blocks').get? name) := by
  apply Dict.rel_foldl_insert _ fun _ => .none
  rw [List.forall₂_map_left_iff, List.forall₂_map_right_iff]
  exact alike.imp fun _ _ each => ⟨congrArg String.ofList each.1, each.2⟩

theorem agree_all {keyword : Keyword} {t t' : Text}
    (alike : Agree (AlikePieces same) (pieces keyword t) (pieces keyword t')) :
    Agree (List.Forall₂ (Alike same)) (all keyword t) (all keyword t') :=
  agree_bind alike fun _ _ found => agree_pure found.1

end Block

namespace Construction

def entitiesOf (module : Block) : List Block :=
  (Block.all .entity (Piece.withoutFirst (Block.pieces .xuiSkin module.body).value)).value

def entities (t : Text) : List Block :=
  (Block.all .module t).value.flatMap entitiesOf

def spriteBody? (entity : Block) : Option Text :=
  (Block.bodies (Block.all .component entity.body).value).get? "SpriteConfig"

def AlikeSprites (entity entity' : Block) : Prop :=
  Option.Rel (fun body body' => faces body' = faces body ∧ baseHealth? body' = baseHealth? body)
    (spriteBody? entity) (spriteBody? entity')

end Construction

/-- Texts so related are read alike as properties and sections, and whatever is found in them or cut
out of them is related as well. -/
structure Unseen (same : Text → Text → Prop) : Prop where
  properties {t t' : Text} (texts : same t t') : Property.all t' = Property.all t
  lines {t t' : Text} (texts : same t t') : Section.contentLines t' = Section.contentLines t
  mappers {t t' : Text} (texts : same t t') :
    List.Forall₂ (Block.Alike same) (RecipeBody.mapper.takeAll [] t).1
        (RecipeBody.mapper.takeAll [] t').1 ∧
      same (RecipeBody.mapper.takeAll [] t).2 (RecipeBody.mapper.takeAll [] t').2
  sections {keyword : String} {t t' : Text} (known : keyword ∈ ["inputs", "outputs"])
    (texts : same t t') : Option.Rel (AlikeParts same)
      (RecipeBody.cutSection? keyword.toList t) (RecipeBody.cutSection? keyword.toList t')
  blocks {keyword : Keyword} {t t' : Text} (known : keyword ∈ [.module, .xuiSkin, .entity, .component])
    (texts : same t t') :
    Agree (Block.AlikePieces same) (Block.pieces keyword t) (Block.pieces keyword t')

namespace Unseen

variable {t t' : Text} (unseen : Unseen same) (settings : Settings)
include unseen

theorem takeMappers (texts : same t t') :
    AlikeRest same (RecipeBody.takeMappers t) (RecipeBody.takeMappers t') := by
  obtain ⟨blocks, left⟩ := unseen.mappers texts
  refine ⟨congrArg Dict.ofList ?_, left⟩
  apply map_eq_of_forall₂ blocks
  intro block block' alike
  rw [alike.1, RecipeBody.mapperTable, RecipeBody.mapperTable, unseen.properties alike.2]

theorem agree_takeSection (recipe : String) {keyword : String}
    (known : keyword ∈ ["inputs", "outputs"]) (texts : same t t') :
    Agree (AlikeRest same) (RecipeBody.takeSection settings recipe keyword t)
      (RecipeBody.takeSection settings recipe keyword t') := by
  have cut := unseen.sections known texts
  rw [RecipeBody.takeSection, RecipeBody.takeSection]
  generalize RecipeBody.cutSection? keyword.toList t = found at cut ⊢
  generalize RecipeBody.cutSection? keyword.toList t' = found' at cut ⊢
  cases cut with
  | none => exact agree_bind (agree_refl _) fun _ _ _ => agree_pure ⟨rfl, texts⟩
  | some parts =>
    dsimp only
    rw [Section.read, Section.read, unseen.lines parts.1]
    exact agree_bind (agree_refl _) fun _ _ same => agree_pure ⟨same, parts.2⟩

theorem read (name : String) (texts : same t t') :
    RecipeBody.read settings name t' = RecipeBody.read settings name t := by
  obtain ⟨mappers, left⟩ := unseen.takeMappers texts
  apply eq_of_agree
  rw [RecipeBody.read, RecipeBody.read]
  generalize RecipeBody.takeMappers t = taken at mappers left ⊢
  generalize RecipeBody.takeMappers t' = taken' at mappers left ⊢
  obtain ⟨tables, rest⟩ := taken
  obtain ⟨tables', rest'⟩ := taken'
  obtain rfl : tables = tables' := mappers
  refine agree_bind (unseen.agree_takeSection settings name (by simp) left) fun _ _ inputs => ?_
  refine agree_bind (unseen.agree_takeSection settings name (by simp) inputs.2) fun _ _ outputs => ?_
  dsimp only
  rw [inputs.1, outputs.1, unseen.properties outputs.2]
  exact agree_refl _

theorem agree_all {keyword : Keyword} (known : keyword ∈ [.module, .xuiSkin, .entity, .component])
    (texts : same t t') :
    Agree (List.Forall₂ (Block.Alike same)) (Block.all keyword t) (Block.all keyword t') :=
  Block.agree_all (unseen.blocks known texts)

theorem readSkin {block block' : Block} (alike : block.Alike same block') :
    SkinSheet.read block' = SkinSheet.read block := by
  apply eq_of_agree
  refine agree_bind (unseen.agree_all (by simp) alike.2) fun _ _ entities => agree_pure ?_
  rw [alike.1, map_eq_of_forall₂ entities]
  intro entity entity' each
  rw [each.1, SkinSheet.label, SkinSheet.label, unseen.properties each.2]

theorem skin? (skins : Option SkinSheet) (name : String) {components components' : Dict Text}
    (alike : ∀ name, Option.Rel same (components.get? name) (components'.get? name)) :
    Construction.skin? skins name components' = Construction.skin? skins name components := by
  have found := alike "UiConfig"
  rw [Construction.skin?, Construction.skin?]
  generalize components.get? "UiConfig" = body at found ⊢
  generalize components'.get? "UiConfig" = body' at found ⊢
  cases found with
  | none => rfl
  | some texts =>
    simp only [Option.bind_eq_bind, Option.bind_some]
    rw [unseen.properties texts]

theorem readEntity (skins : Option SkinSheet) {entity entity' : Block}
    (alike : entity.Alike same entity') (sprites : Construction.AlikeSprites entity entity') :
    Construction.readEntity settings skins entity' =
      Construction.readEntity settings skins entity := by
  apply eq_of_agree
  have found : Agree (List.Forall₂ (Block.Alike same)) (Block.all .component entity.body)
      (Block.all .component entity'.body) := unseen.agree_all (by simp) alike.2
  have components := Block.rel_bodies found.2
  refine agree_bind_value found.1 ?_
  have crafted := components "CraftRecipe"
  rw [Construction.AlikeSprites, Construction.spriteBody?, Construction.spriteBody?] at sprites
  dsimp only
  rw [alike.1, unseen.skin? skins _ components]
  generalize (Block.bodies (Block.all .component entity.body).value).get? "CraftRecipe" = body
    at crafted ⊢
  generalize (Block.bodies (Block.all .component entity'.body).value).get? "CraftRecipe" = body'
    at crafted ⊢
  cases crafted with
  | none => exact agree_refl _
  | some texts =>
    dsimp only
    rw [unseen.read settings _ texts]
    generalize (Block.bodies (Block.all .component entity.body).value).get? "SpriteConfig" = body
      at sprites ⊢
    generalize (Block.bodies (Block.all .component entity'.body).value).get? "SpriteConfig" = body'
      at sprites ⊢
    cases sprites with
    | none => exact agree_refl _
    | some bodies =>
      dsimp only
      rw [bodies.1, bodies.2]
      exact agree_refl _

theorem readModule {module module' : Block} (alike : module.Alike same module')
    (sprites : ∀ entity ∈ Construction.entitiesOf module,
      ∀ entity' ∈ Construction.entitiesOf module', entity.Alike same entity' →
        Construction.AlikeSprites entity entity') :
    Construction.readModule settings module' = Construction.readModule settings module := by
  apply eq_of_agree
  have found : Agree (Block.AlikePieces same) (Block.pieces .xuiSkin module.body)
      (Block.pieces .xuiSkin module'.body) := unseen.blocks (by simp) alike.2
  refine agree_bind_value found.1 ?_
  have skins : Agree (· = ·)
      (((Block.pieces .xuiSkin module.body).value.filterMap Piece.value?).head?.mapM SkinSheet.read)
      (((Block.pieces .xuiSkin module'.body).value.filterMap Piece.value?).head?.mapM
        SkinSheet.read) := by
    have blocks := found.2.1
    generalize (Block.pieces .xuiSkin module.body).value.filterMap Piece.value? = skins at blocks ⊢
    generalize (Block.pieces .xuiSkin module'.body).value.filterMap Piece.value? = skins' at blocks ⊢
    cases blocks with
    | nil => exact agree_refl _
    | cons first _ =>
      simp only [List.head?_cons, Option.mapM_some, unseen.readSkin first]
      exact agree_refl _
  refine agree_bind skins fun skins _ known => ?_
  have entities : Agree (List.Forall₂ (Block.Alike same)) (Block.all .entity _)
      (Block.all .entity _) := unseen.agree_all (by simp) found.2.2
  refine agree_bind_value entities.1 ?_
  refine agree_bind (agree_mapM entities.2 fun entity inside entity' inside' each => ?_) ?_
  · rw [known, unseen.readEntity settings _ each (sprites entity inside entity' inside' each)]
  · exact fun _ _ recipes => agree_pure (by rw [recipes])

theorem constructions (texts : same t t')
    (sprites : ∀ entity ∈ Construction.entities t, ∀ entity' ∈ Construction.entities t',
      entity.Alike same entity' → Construction.AlikeSprites entity entity') :
    Construction.all settings t' = Construction.all settings t := by
  apply eq_of_agree
  have modules : Agree (List.Forall₂ (Block.Alike same)) (Block.all .module t)
      (Block.all .module t') := unseen.agree_all (by simp) texts
  refine agree_bind_value modules.1 ?_
  refine agree_bind (agree_mapM modules.2 fun module inside module' inside' each => ?_) ?_
  · refine unseen.readModule settings each fun entity member entity' member' => ?_
    exact sprites entity (List.mem_flatMap.mpr ⟨module, inside, member⟩) entity'
      (List.mem_flatMap.mpr ⟨module', inside', member'⟩)
  · exact fun _ _ recipes => agree_pure (congrArg List.flatten recipes)

end Unseen

end CraftScript
