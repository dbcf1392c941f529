import BlockSci.Layout
import BlockSci.SimpleFileMapper
import BlockSci.AppendPath
import BlockSci.FixedSizeFileMapper
import BlockSci.Cursor
import BlockSci.ArrayStore
import BlockSci.IndexedFileMapper
import BlockSci.LogicalView
import BlockSci.Alignment
import BlockSci.Refinement
import BlockSci.TruncateReplay
import BlockSci.Grow
import BlockSci.BlockchainPy
import BlockSci.Durability
import BlockSci.Persistence
import BlockSci.IndexedCursor
import BlockSci.Visibility
