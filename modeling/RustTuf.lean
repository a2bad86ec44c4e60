import RustTuf.Rust.Str
import RustTuf.Rust.BTreeMap
import RustTuf.Rust.HashMap
import RustTuf.Chrono.DateTime
import RustTuf.Chrono.Rfc3339
import RustTuf.Metadata.Basic
import RustTuf.Metadata.Checks
import RustTuf.Serde.Map
import RustTuf.Shims.Common
import RustTuf.Shims.RoleDefinition
import RustTuf.Shims.PublicKey
import RustTuf.Shims.Delegation
import RustTuf.Shims.Description
import RustTuf.Shims.Root
import RustTuf.Shims.Timestamp
import RustTuf.Shims.Snapshot
import RustTuf.Shims.Targets
import RustTuf.Shims.Codec
import RustTuf.Shims.Accepted
