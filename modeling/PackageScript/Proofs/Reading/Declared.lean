import PackageScript.Proofs.Reading.Acceptance
import PackageScript.Proofs.Setting.Grouping
/-! What the fields of a target declare. How lists are nested does not count. -/
namespace PackageScript

namespace Grammar
open Yaml

end Grammar

namespace Reading
open Yaml Checked Grammar

section Settings

variable {name path : String} {t : Tree}

end Settings

section Targets

variable {name : String}

end Targets

section Renesting

end Renesting

end Reading

end PackageScript
