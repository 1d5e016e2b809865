import IndexFs.Space.DoubleFree
import IndexFs.Space.Creation
import IndexFs.Block.PingpongRuns
import IndexFs.Tree.Edit
import IndexFs.Tree.WalkErrors
import IndexFs.Tree.Update
import IndexFs.Object.CommitWrites
import IndexFs.Object.RegistryRuns
import IndexFs.Collate.Orders
import IndexFs.Collate.Intervals
import IndexFs.Collate.Memory
import IndexFs.Object.Names
import IndexFs.Container.Registry
import IndexFs.Object.Reads
import IndexFs.Tree.Assertions
import IndexFs.Tree.SplitStep
import IndexFs.Tree.RawRuns
import IndexFs.Tree.Runs
import IndexFs.Tree.Select
import IndexFs.Object.CacheTrees
import IndexFs.Avl.Packed
