import XetCore.Merkle.MergeTree
import XetCore.Chunking.PartitionSpec
import XetCore.Dedup.Counters
import XetCore.Session.DependencyTotals
import XetCore.Session.ShardUploadFrames
import XetCore.Session.TrackerTotals
import XetCore.Session.UploadProgress
import XetCore.Xorb.ByteGrouping
import XetCore.Xorb.RangeSafety
import XetCore.Xorb.DecoderAgreement
import XetCore.Xorb.Reconstruct
import XetCore.Xorb.RoundTrip
import XetCore.Xorb.FooterReaders
import XetCore.Xorb.UniquenessNonce
import XetCore.Shard.EligibleChunks
import XetCore.Shard.KeyedExportSpec
import XetCore.Shard.FileVisibility
import XetCore.Shard.Registration
import XetCore.Shard.ShardExpiry
import XetCore.Shard.ShardSize
import XetCore.Shard.ConsolidationRuns
import XetCore.Runtime.SingleFlight
import XetCore.Reconstruction.Download
import XetCore.Reconstruction.RetrievalUrls
import XetCore.Reconstruction.CachedBlocks
import XetCore.RangeUpload.ResponseSpec
import XetCore.RangeUpload.UploadSpec
