import Modeld.Core.TagListing
import Modeld.Runs.Pins
import Modeld.Runs.RegistryRuns

/-!
# What `List` leaves out

`List` answers with no entries at all when the registry cannot be listed, and one file whose name
the registry does not accept is enough for that. Calls and imports write no such file; a pull does
when its name or its tag is not what the registry accepts.
-/

namespace Modeld

open Host Program

variable {root : Path} {h : Fs} {ctx : ModelServiceContext} {inst : Installation}

/-! ### The reply to `List` -/

/-- The entries of a reply to `List`. -/
def VarlinkReply.models (reply : VarlinkReply) : List Json :=
  ((reply.parameters.bind fun p => p.get "models").bind Json.asArray).getD []

/-- The entry is that of the tag. -/
structure IsEntryOf (x : ModelTag) (e : Json) : Prop where
  id : e.get "id" = some (.str (x.name ++ ":" ++ x.tag))
  digest : e.get "digest" = some (.str x.digest)
  name : e.get "name" = some (.str x.name)
  tag : e.get "tag" = some (.str x.tag)

theorem isEntryOf_listEntry (x : ModelTag) :
    IsEntryOf x ((listEntry ctx x).run Fs.exec h).1 := by
  unfold listEntry
  rw [run_bind, run_bind, run_bind]
  constructor <;> exact Json.get_object (by simp) (by simp)

theorem models_handleList : ((handleList ctx).run Fs.exec h).1.models =
    ((listEntries ctx (((ctx.tags.listTags).run Fs.exec h).1.toOption.getD [])).run Fs.exec h).1 := by
  unfold handleList
  rw [run_bind_of_reads TagRegistry.only_listTags, run_bind]
  rfl

/-! ### Which tags are listed -/

theorem dispatchCall_list {json : JsonLibrary} {call : VarlinkCall}
    (hlist : call.method = "io.syntrop.Model1.List") : dispatchCall json call ctx = handleList ctx := by
  obtain ⟨method, params, more⟩ := call
  obtain rfl : method = _ := hlist
  rfl

namespace Operation

/-- Where an operation writes a tag without asking the registry, the registry would accept it. -/
def Accepted : Operation → Prop
  | pull q => IsSegment q.name ∧ IsSegment q.tag
  | commit _ c => IsSegment c.name ∧ IsSegment c.tag
  | _ => True

theorem Accepted.segments {o : Operation} (ho : o.Accepted) {n v : Name} (hnv : o.MayName n v) :
    Segments n v := by
  cases o with
  | call c => exact hnv
  | store pid reader expected => exact hnv.elim
  | pull q =>
    obtain ⟨hn, hv⟩ := hnv
    rw [Segments, hn, hv]
    exact ho
  | commit staged c =>
    obtain ⟨hn, hv⟩ := hnv
    rw [Segments, hn, hv]
    exact ho
  | importFile chunking pid source tag => exact hnv

end Operation

/-- What the registry accepts can be named. -/
theorem TagRegistry.Holds.allNameable {t : TagRegistry} {m : Entries} (hm : t.Holds h m)
    (hseg : ∀ n v d, m n v = some d → Segments n v) : t.AllNameable h := by
  intro n v i _ hi
  obtain ⟨d, hd, hbytes, -, -⟩ := hm.of_file hi
  obtain ⟨hn, hv⟩ := hseg n v d hd
  rw [hbytes, Text.ofBytes?_toBytes]
  exact ⟨hn, hv, rfl⟩

end Modeld
