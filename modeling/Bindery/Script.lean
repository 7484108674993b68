import Bindery.Generate

/-! The binding scripts that come with the tool. -/

namespace Bindery

structure Script where
  name : String
  description : String
  tasks : List BindingTask

namespace Script

/-- Functions that take a format and any number of arguments, which cannot be passed on. -/
def formatFunctions : List String :=
  ["rz_core_notify_begin", "rz_core_notify_done", "rz_core_notify_error", "rz_core_cmd_strf",
    "rz_core_cmdf", "rz_core_syscallf"]

/-- Lists and their iterators. Lists are created and freed by their owners. -/
def lists : BindM Unit := do
  BindM.addGeneric "RzList" .required ["RzListIter"]
  BindM.addGenericMethod "RzList" "rz_list_length" "length" {}
  BindM.addGenericMethod "RzList" "rz_list_first" "first" { result := true }
  BindM.addPythonMethod "RzList" "__len__(self)" ["return self.length()"]
  BindM.addGeneric "RzListIter" .required []
  BindM.ignore "rz_list_new"
  BindM.ignore "rz_list_free"

/-- The core and its plugins. -/
def core : BindM Unit := do
  BindM.addEnum "RzCoreSeekMode"
  BindM.addDefines [] (some "RZ_CORE_BLOCKSIZE")
  formatFunctions.forM BindM.ignore
  let c ← BindM.addClass { typedefName := "RzCore" }
  BindM.addConstructor c.name "rz_core_new"
  BindM.addDestructor c.name "rz_core_free"
  let _ ← BindM.addMethodsWith c.name "rz_core_"
  let _ ← BindM.addFuncsWith c.name "rz_core_"
  BindM.addDirector "RzCorePlugin"

def rizin : Script where
  name := "rizin"
  description := "rz_core.h and the list generics it depends on"
  tasks := [⟨"rz_list.h", lists⟩, ⟨"rz_core.h", core⟩]

def all : List Script := [rizin]

def find? (name : String) : Option Script :=
  all.find? (·.name == name)

end Script

end Bindery
