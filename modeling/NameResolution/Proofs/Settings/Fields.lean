import NameResolution.Settings.Options

/-!
# Options as fields of a record

The nine options are read in one way: `null` says that an option is not given, any other value is
read as what the option holds, and the outcome is put in the option's place (`readField_eq`).
So what holds of the readers of single values holds of the reader of all options, and an option
is changed by its own member and by no other.
-/

namespace NameResolution

open Json (Fault Tree)

namespace OptionField

/-- What an option holds when it is given. -/
def Content : OptionField → Type
  | target | moduleResolution | baseUrl => String
  | paths => List (String × List String)
  | typeRoots | types => List String
  | traceResolution | allowJs => Bool
  | maxNodeModuleJsDepth => Nat

/-- Reads what an option holds. -/
def readContent : (field : OptionField) → Tree → Except Fault field.Content
  | target | moduleResolution | baseUrl => Tree.readString
  | paths => Tree.readMap (Tree.readList Tree.readString)
  | typeRoots | types => Tree.readList Tree.readString
  | traceResolution | allowJs => Options.readFlag
  | maxNodeModuleJsDepth => Tree.readCount

end OptionField

namespace Options

/-- The option as it is given. -/
def get (o : Options) : (field : OptionField) → Option field.Content
  | .target => o.target
  | .moduleResolution => o.moduleResolution
  | .baseUrl => o.baseUrl
  | .paths => o.paths
  | .typeRoots => o.typeRoots
  | .types => o.types
  | .traceResolution => o.traceResolution
  | .allowJs => o.allowJs
  | .maxNodeModuleJsDepth => o.maxNodeModuleJsDepth

/-- The options with another value in the place of one. -/
def set (o : Options) : (field : OptionField) → Option field.Content → Options
  | .target, value => { o with target := value }
  | .moduleResolution, value => { o with moduleResolution := value }
  | .baseUrl, value => { o with baseUrl := value }
  | .paths, value => { o with paths := value }
  | .typeRoots, value => { o with typeRoots := value }
  | .types, value => { o with types := value }
  | .traceResolution, value => { o with traceResolution := value }
  | .allowJs, value => { o with allowJs := value }
  | .maxNodeModuleJsDepth, value => { o with maxNodeModuleJsDepth := value }

@[simp] theorem get_set (o : Options) (field : OptionField) (value : Option field.Content) :
    (o.set field value).get field = value := by
  cases field <;> rfl

theorem get_set_of_ne (o : Options) {field other : OptionField} (h : field ≠ other)
    (value : Option field.Content) : (o.set field value).get other = o.get other := by
  cases field <;> cases other <;> first | rfl | exact absurd rfl h

/-- Options are their nine values. -/
theorem ext_get {o o' : Options} (h : ∀ field, o.get field = o'.get field) : o = o' := by
  cases o
  cases o'
  rw [Options.mk.injEq]
  exact ⟨h .target, h .moduleResolution, h .baseUrl, h .paths, h .typeRoots, h .types,
    h .traceResolution, h .allowJs, h .maxNodeModuleJsDepth⟩

@[simp] theorem get_none (field : OptionField) : (({} : Options).get field) = none := by
  cases field <;> rfl

/-- An option is read by the reader of what it holds, and put in its place. -/
theorem readField_eq (field : OptionField) (t : Tree) (o : Options) :
    readField field t o = (t.readOptional field.readContent).map (o.set field) := by
  cases field <;> rfl

end Options

end NameResolution
