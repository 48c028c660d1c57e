import Colibri.Serve.Stream
import Colibri.Dsv4.RawCall
import Colibri.Kv.CompRows
import Colibri.Lib.TopK
import Colibri.Dsv4.Keys
import Colibri.Dsv4.Attention
import Colibri.Dsv4.Forward
import Colibri.Dsv4.KeySets
import Colibri.Dsv4.Capacity
import Colibri.Attention.Sharded
import Colibri.Cluster.Net
import Colibri.Cluster.ShardNames
import Colibri.Cluster.Worker
import Colibri.Generate.Drafting
import Colibri.Generate.Invisible
import Colibri.Kv.Bytes
import Colibri.Attention.Mla
import Colibri.Cluster.ShardPull
import Colibri.Forward.Batched
import Colibri.Lib.Regex
import Colibri.Tokenizer.Cl100k
import Colibri.Tokenizer.Encode
import Colibri.Tokenizer.K3
import Colibri.Tokenizer.RoundTrip
import Colibri.Tokenizer.Specials
import Colibri.Cluster.Contiguous
import Colibri.Cache.Accounting
import Colibri.Cache.Pins
import Colibri.Cache.Reserve
import Colibri.Cache.Transparent
import Colibri.Gpu.FfnCache
import Colibri.Gpu.Resident
import Colibri.Lib.Ranges
import Colibri.Pool.Organic
import Colibri.Ram.Commit
import Colibri.Ram.Usage
import Colibri.Cache.Monitor
import Colibri.Cluster.Cursor
import Colibri.Kv.Shadow
import Colibri.Moe.Formats
import Colibri.Pool.Arena
import Colibri.Pool.Pins
import Colibri.Moe.Grouped
import Colibri.Cluster.Framing
import Colibri.Cluster.Link
import Colibri.Lib.Drain
import Colibri.Safetensors.Batched
import Colibri.Safetensors.Uring
import Colibri.Json.Number
import Colibri.Json.Parse
import Colibri.Json.Write
import Colibri.Lib.EventStream
import Colibri.Safetensors.Escapes
import Colibri.Safetensors.Subset
import Colibri.Loader.Floats
import Colibri.Loader.QtLoad
import Colibri.Moe.Views
import Colibri.Attention.Absorb
import Colibri.Attention.Calls
import Colibri.Attention.Chunked
import Colibri.Attention.Driver
import Colibri.Convert.Bf16
import Colibri.Convert.Dequant
import Colibri.Convert.E4m3
import Colibri.Convert.Nvfp4
import Colibri.Convert.Passthrough
import Colibri.Convert.Ternary
import Colibri.Lib.DeltaRule
import Colibri.Lib.Stages
import Colibri.Mixer.Conv
import Colibri.Mixer.Kda
import Colibri.Convert.Classify
import Colibri.Convert.Recoding
import Colibri.Convert.Snapshot
import Colibri.Convert.Names
import Colibri.Cache.Eviction
import Colibri.Cluster.Balanced
import Colibri.Cluster.Capacity
import Colibri.Forward.AttnRes
import Colibri.Json.Bytes
import Colibri.Json.Place
import Colibri.Json.Agree
import Colibri.Moe.Cpu
import Colibri.Moe.Dsv4
import Colibri.Serve.Literal
import Colibri.Generate.HeadRows
import Colibri.Lib.Lines
import Colibri.Serve.Request
import Colibri.Serve.Words
import Colibri.Serve.Respond
import Colibri.Serve.Events
import Colibri.Serve.Handle
import Colibri.Serve.Template
import Colibri.Tokenizer.Merge
import Colibri.Moe.Select
import Colibri.Attention.Indexer
import Colibri.Attention.BlockSelect
import Colibri.Dsv4.Hadamard
import Colibri.Dsv4.HyperConn
import Colibri.Dsv4.Stream
import Colibri.Dsv4.Core
import Colibri.Quantize.Agree
import Colibri.Preload.RoundTrip
import Colibri.Cache.HotStore
import Colibri.Cache.History
import Colibri.Cache.Predictor
import Colibri.Moe.Chunks
