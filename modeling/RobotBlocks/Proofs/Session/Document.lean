import RobotBlocks.Proofs.Code.Total
import RobotBlocks.Proofs.Graph.Mirrored
import RobotBlocks.Proofs.Session.Loading
import RobotBlocks.Proofs.Session.Whole

/-! What a session stores. Neither the name of the module nor the options matter to it, and loading it
again, against the declarations of the same modules or of fewer of them, finds all references in line and
stores the same. -/
namespace RobotBlocks

/-- A scope with fewer modules. -/
structure Scope.Narrower (scope' scope : Scope) : Prop where
  robot : ∀ known, scope'.robot = some known → scope.robot = some known
  mechanisms : ∀ {name known}, scope'.mechanisms.get? name = some known →
    scope.mechanisms.get? name = some known

namespace Scope

variable {scope scope' : Scope} {own owner : Declarations} {kind : Kind} {call : CallState}
  {signature : Signature} {block : Block}

theorem Narrower.owner? (narrower : scope'.Narrower scope) {target : CallTarget}
    (owned : scope'.owner? own target = some owner) : scope.owner? own target = some owner := by
  cases target with
  | robot => exact narrower.robot _ owned
  | mechanism name module => exact narrower.mechanisms owned
  | selfModule | fireEvent | component _ | moduleFunction _ => exact owned

theorem Narrower.lookup (narrower : scope'.Narrower scope)
    (found : scope'.lookup own kind call = .found signature) :
    scope.lookup own kind call = .found signature := by
  obtain ⟨owner, owned, declares⟩ := lookup_eq_found.mp found
  exact lookup_eq_found.mpr ⟨owner, narrower.owner? owned, declares⟩

/-- Where fewer references resolve, those in line stay so. -/
theorem Current.narrow (current : scope.Current own block) (narrower : scope'.Narrower scope) :
    scope'.Current own block :=
  fun call signature carried found => current call signature carried (narrower.lookup found)

end Scope

namespace Graph

variable {g h k : Graph}

theorem Mirrors.symm (mirrors : g.Mirrors h) : h.Mirrors g :=
  ⟨mirrors.ids.symm, fun id => (mirrors.blocks id).symm, fun id => (mirrors.links id).symm⟩

theorem Mirrors.trans (first : g.Mirrors h) (second : h.Mirrors k) : g.Mirrors k :=
  ⟨second.ids.trans first.ids, fun id => (second.blocks id).trans (first.blocks id),
    fun id => (second.links id).trans (first.links id)⟩

/-- Opmode details are read off the blocks in walk order, whatever their warnings. -/
theorem Mirrors.opMode (mirrors : g.Mirrors h) (tree : g.Tree) (tree' : h.Tree) :
    OpModeDetails.ofGraph? h = OpModeDetails.ofGraph? g := by
  have walk : h.walkAll = g.walkAll := by
    rw [← tree.ids_toForest, ← tree'.ids_toForest, mirrors.toForest tree tree']
  have reads : ∀ id, (h.block? id).bind OpModeDetails.ofBlock? = (g.block? id).bind OpModeDetails.ofBlock? :=
    mirrors.bind_block fun _ => rfl
  simp only [OpModeDetails.ofGraph?, walk, reads]

end Graph

namespace Session

variable {s : Session} {type : ModuleType} {name : String} {options : Code.Options}

/-- The links of an opened session are a forest, wherever its blocks come from. -/
theorem load_sound {forest : Forest} {scope : Scope}
    (loaded : Session.load forest scope .standard = .ok s) : s.graph.Sound := by
  obtain ⟨g, stored, rfl⟩ := load_eq_ok.mp loaded
  exact (settled_evolves rfl).sound ((Graph.Sound.ofForest stored).queue _)

/-- The content of a session as that of a module of some type. -/
def document (s : Session) (type : ModuleType) : ModuleContent where
  type
  blocks := s.toForest
  opMode := if type = .opMode then OpModeDetails.ofGraph? s.graph else none
  declarations := if type.exports then (Declarations.collect s.graph).exported else {}

theorem content_document {content : ModuleContent} (made : s.content type name options = .ok content) :
    content = s.document type := by
  simp only [Session.content, Session.generate, bind_eq_ok, mapError_eq_ok, pure_eq_ok] at made
  obtain ⟨generated, made, rfl⟩ := made
  obtain ⟨-, outline, collected, declared, details⟩ := Code.generate_outline made
  obtain ⟨className, -, rfl⟩ := Option.map_eq_some_iff.mp collected
  rw [document, declared, details]

/-- A text is made where code is. -/
theorem contentText_generates : (∃ text, s.contentText type name options = .ok text) ↔
    ∃ generated, Code.generate type name s.graph s.scope options = .ok generated := by
  constructor
  · rintro ⟨text, made⟩
    obtain ⟨content, own, -⟩ := map_eq_ok.mp made
    simp only [Session.content, Session.generate, bind_eq_ok] at own
    obtain ⟨generated, own, -⟩ := own
    exact ⟨generated, mapError_eq_ok.mp own⟩
  · rintro ⟨generated, own⟩
    obtain ⟨content, shown⟩ : ∃ content, s.content type name options = .ok content :=
      ⟨_, bind_eq_ok.mpr ⟨generated, mapError_eq_ok.mpr own, rfl⟩⟩
    exact ⟨content.text, map_eq_ok.mpr ⟨content, shown, rfl⟩⟩

theorem contentText_valid {text : String} (made : s.contentText type name options = .ok text) :
    options.isValid = true := by
  obtain ⟨generated, own⟩ := contentText_generates.mp ⟨text, made⟩
  exact (Code.generate_outline own).1

/-- Making the text of a sound graph fails for the options or the type of the module alone. -/
theorem contentText_ok_iff (sound : s.graph.Sound) :
    (∃ text, s.contentText type name options = .ok text) ↔ options.isValid = true ∧ type ≠ .unknown :=
  contentText_generates.trans (Code.generate_ok_iff sound s.scope)

theorem contentText_document {text : String} (made : s.contentText type name options = .ok text) :
    text = (s.document type).text := by
  obtain ⟨content, own, rfl⟩ := map_eq_ok.mp made
  rw [content_document own]

theorem document_contentText (sound : s.graph.Sound) (valid : options.isValid = true) (known : type ≠ .unknown)
    (name : String) : s.contentText type name options = .ok (s.document type).text := by
  obtain ⟨text, made⟩ : ∃ text, s.contentText type name options = .ok text :=
    (contentText_ok_iff sound).mpr ⟨valid, known⟩
  rw [made, contentText_document made]

/-- Mirror images store the same. -/
theorem document_mirrors {s' : Session} (mirrors : s.graph.Mirrors s'.graph) (regular : s.graph.Regular)
    (sound : s'.graph.Sound) (type : ModuleType) : s'.document type = s.document type := by
  have declared := (mirrors.trimmed sound).collect regular
  have stored : s'.toForest = s.toForest := mirrors.toForest regular.sound.tree sound.tree
  rw [document, document, declared, stored, mirrors.opMode regular.sound.tree sound.tree]

/-- A stored session that is loaded declares what it declared. -/
theorem Whole.declares {g : Graph} (whole : s.Whole) (loaded : Graph.ofForest s.toForest = .ok g)
    (argued : s.toForest.Argued) : g.Regular ∧ Declarations.collect g = .collect s.graph := by
  have sound := whole.graph.sound
  have regular : g.Regular := .ofArgued loaded whole.toForest_distinct argued
  obtain ⟨mirrors, sound'⟩ := sound.mirrors_ofForest loaded
  exact ⟨regular, mirrors.collect sound.tree sound'.tree⟩

variable {forest : Forest} {g : Graph} {scope scope' : Scope}

/-- Loading leaves the declarations as they are stored. -/
theorem load_declares (loaded : Graph.ofForest forest = .ok g) (regular : g.Regular)
    (few : forest.size < eventLimit) (opened : Session.load forest scope .standard = .ok s) :
    Declarations.collect s.graph = .collect g := by
  obtain ⟨same, reopened, settled⟩ := load_settled scope loaded regular few
  cases opened.symm.trans reopened
  exact (settled.trimmed regular).collect regular

/-- What a loaded session stores is loaded again without any change. -/
theorem load_again (loaded : Graph.ofForest forest = .ok g) (regular : g.Regular)
    (few : forest.size < eventLimit) (opened : Session.load forest scope .standard = .ok s)
    (clear : scope.Clear) (narrower : scope'.Narrower scope) :
    ∃ again, Session.load s.toForest scope' .standard = .ok again ∧
      again.graph.Sound ∧ ∀ type, again.document type = s.document type := by
  obtain ⟨same, reopened, settled⟩ := load_settled scope loaded regular few
  cases opened.symm.trans reopened
  have trimmed := settled.trimmed regular
  have regular' := trimmed.regular_after regular
  have early : ∀ id, s.graph.contains id = true → id.number < BlockId.last.number := fun id present =>
    Graph.early_ofForest loaded id (Graph.contains_iff_mem.mp (trimmed.contains present))
  obtain ⟨stored, reloaded, mirrors, steady, own⟩ := regular'.reload early
  have fewer : s.graph.toForest.size < eventLimit := by
    rw [← Graph.size_ofForest reloaded, mirrors.size]
    exact (trimmed.size_le.trans_eq (Graph.size_ofForest loaded)).trans_lt few
  obtain ⟨again, reopened, settled'⟩ := load_settled scope' reloaded steady fewer
  -- The references come back as the first turns left them, so the second turns find them in line.
  have current : ∀ r ∈ stored.references, ∀ block, stored.block? r = some block →
      scope'.Current (.collect stored) block := by
    intro r member block found
    obtain ⟨shown, there, reference⟩ := steady.sound.mem_references.mp member
    cases found.symm.trans there
    obtain ⟨before, here, alike⟩ := mirrors.stored_block found
    have kind : block.kind = before.kind := (congrArg Block.kind alike :)
    have current := settled.current_of_clear regular.sound clear (Declarations.unambiguous_collect g) here
      (kind ▸ reference)
    rw [own, trimmed.collect regular]
    exact (current.congr kind (congrArg Block.extra alike :)).narrow narrower
  have unmoved := mirrors.trans (settled'.mirrors steady.sound.tree current)
  exact ⟨again, reopened, settled'.sound, document_mirrors unmoved regular' settled'.sound⟩

end Session
end RobotBlocks
