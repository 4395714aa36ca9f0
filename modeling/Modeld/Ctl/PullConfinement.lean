import Modeld.Ctl.PullPlaces

/-!
# When a pull is confined

A pull is confined when it stays in the storage root, writes no tag but the one that it is for, and
refuses a name or a tag that the tag registry would not accept. Nothing on the way from the command
line to the storage checks them, so what decides is whether the resolved name and tag happen to be
acceptable.
-/

namespace Modeld

open Host Program

namespace PullRequest

variable {sha : Sha256} {r : PullRequest} {m : ResolvedModel} {h : Fs}

end PullRequest

end Modeld
