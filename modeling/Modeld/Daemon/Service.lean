import Modeld.Daemon.Protocol
import Modeld.Host.Text

/-!
# `org.varlink.service`

The methods that describe the service. They touch no storage.
-/

namespace Modeld

open Host

/-- Varlink interface definition text for org.varlink.service. -/
def ORG_VARLINK_SERVICE_INTERFACE : String := "
interface org.varlink.service

method GetInfo() -> (
  vendor: string,
  product: string,
  version: string,
  url: string,
  interfaces: []string
)

method GetInterfaceDescription(interface: string) -> (description: string)

error InterfaceNotFound(interface: string)
error MethodNotFound(method: string)
error MethodNotImplemented(method: string)
error InvalidParameter(parameter: string)
"

/-- Varlink interface definition text for io.syntrop.Model1. -/
def IO_SYNTROP_MODEL1_INTERFACE : String := "
interface io.syntrop.Model1

type ModelEntry (
  id: string,
  digest: string,
  name: ?string,
  tag: ?string,
  size_bytes: int,
  pinned: bool,
  format: string
)

method List() -> (models: []ModelEntry)
method Inspect(id: string) -> (info: ModelEntry, metadata: ?string)
method Register(id: string, tag: ?string, digest: ?string) -> (entry: ModelEntry, metadata: ?string)
method Pin(id: string) -> ()
method Unpin(id: string) -> ()
method Prune(max_bytes: int) -> (reclaimed_bytes: int)
method GetStorageStats() -> (total_bytes: int, model_count: int, pinned_count: int)

error NoSuchModel(id: string)
error InvalidIdentifier(id: string)
error InvalidParameter(parameter: string, reason: string)
error OperationFailed(reason: string)
error SecurityRejection(reason: string)
"

/-- The version of the package. -/
def CARGO_PKG_VERSION : String := "0.6.2"

/-- `GetInterfaceDescription`. -/
def describeInterface (iface : String) : VarlinkReply :=
  if iface = "org.varlink.service" then
    .ok (.object [("description", .str (Text.trim ORG_VARLINK_SERVICE_INTERFACE))])
  else if iface = "io.syntrop.Model1" then
    .ok (.object [("description", .str (Text.trim IO_SYNTROP_MODEL1_INTERFACE))])
  else
    .err "org.varlink.service.InterfaceNotFound" (some (.object [("interface", .str iface)]))

/-- `handle_service_call`. -/
def handleServiceCall (method : String) (params : Option Json) : Option VarlinkReply :=
  if method = "org.varlink.service.GetInfo" then
    some (.ok (.object [
      ("vendor", .str "Syntropd Project"),
      ("product", .str "modeld"),
      ("version", .str CARGO_PKG_VERSION),
      ("url", .str "https://github.com/syntropd/modeld"),
      ("interfaces", .arr [.str "org.varlink.service", .str "io.syntrop.Model1"])]))
  else if method = "org.varlink.service.GetInterfaceDescription" then
    some (describeInterface ((textParam params "interface").getD ""))
  else none

end Modeld
