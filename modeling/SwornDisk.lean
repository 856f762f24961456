import SwornDisk.Rust.IndexLsm
import SwornDisk.C.Freshness
import SwornDisk.Rust.DispatchFair
import SwornDisk.C.NonceUse
import SwornDisk.C.PartialWrites
import SwornDisk.C.ThreadedLogging
import SwornDisk.Rust.ReadHoles
import SwornDisk.Rust.BitCompaction
import SwornDisk.Rust.BitSearch
import SwornDisk.Rust.LruRuns
import SwornDisk.Rust.SubBlockWrites
import SwornDisk.C.RelativeFiles
import SwornDisk.C.CatalogueMirror
import SwornDisk.C.AddressWidth
import SwornDisk.C.SegmentAllocation
import SwornDisk.Rust.MetaLayout
import SwornDisk.C.DiskBitset
