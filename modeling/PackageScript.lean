import PackageScript.Main
import PackageScript.Proofs.Dependency.Merging
import PackageScript.Proofs.Files.AllOrNothing
import PackageScript.Proofs.Files.Course
import PackageScript.Proofs.Files.Independence
import PackageScript.Proofs.Files.Kept
import PackageScript.Proofs.Files.Race
import PackageScript.Proofs.Files.Repeated
import PackageScript.Proofs.Files.Undone
import PackageScript.Proofs.Files.Unharmed
import PackageScript.Proofs.Normal.Environment
import PackageScript.Proofs.Normal.Order
import PackageScript.Proofs.Normal.Preservation
import PackageScript.Proofs.Reading.Acceptance
import PackageScript.Proofs.Reading.Declared
import PackageScript.Proofs.Reading.KeyOrder
import PackageScript.Proofs.Reading.Names
import PackageScript.Proofs.Reading.SectionAdvice
import PackageScript.Proofs.Reading.WellFormed
import PackageScript.Proofs.Script.Faithful
import PackageScript.Proofs.Script.Quoting
import PackageScript.Proofs.Selector.Tags
import PackageScript.Proofs.Setting.History
