import GoExperiments.Lib.GoBasic
import GoExperiments.Lib.Runs
import GoExperiments.Lib.GoMap
import GoExperiments.Lib.Census
import GoExperiments.Lib.Utf8
import GoExperiments.Lib.Json
import GoExperiments.Lib.Lines
import GoExperiments.Lib.Path
import GoExperiments.Lib.Replace
import GoExperiments.Lib.Session
import GoExperiments.Lib.LdapFilter
import GoExperiments.Lib.GoSlice
import GoExperiments.Lib.BitArray
import GoExperiments.Lib.BlockMode
import GoExperiments.Lib.ByteMemory
import GoExperiments.Lib.LinkedList
import GoExperiments.Lib.WaitGroup
import GoExperiments.Dhcp.Addr
import GoExperiments.Dhcp.Handler
import GoExperiments.Dhcp.Serve
import GoExperiments.Dhcp.Leases
import GoExperiments.Dhcp.Offers
import GoExperiments.Dhcp.Pool
import GoExperiments.Dhcp.Sticky
import GoExperiments.Dhcp.Scan
import GoExperiments.Jojo.Upstream
import GoExperiments.Jojo.Probe
import GoExperiments.Jojo.Failover
import GoExperiments.Jojo.Ring
import GoExperiments.Jojo.Responses
import GoExperiments.Jojo.Stuck
import GoExperiments.Jojo.Slip
import GoExperiments.Jojo.Route
import GoExperiments.Jojo.DnsCache
import GoExperiments.Jojo.Payload
import GoExperiments.Jojo.Pick
import GoExperiments.Goraft.Log
import GoExperiments.Goraft.Storage
import GoExperiments.Goraft.System
import GoExperiments.Goraft.Encoding
import GoExperiments.Goraft.Snapshots
import GoExperiments.Goraft.Start
import GoExperiments.Goraft.Recovery
import GoExperiments.Goraft.Reads
import GoExperiments.Goraft.Cluster
import GoExperiments.Vanishling.Journal
import GoExperiments.Vanishling.Upload
import GoExperiments.Vanishling.Ttl
import GoExperiments.Vanishling.Orphans
import GoExperiments.Vanishling.Cleaner
import GoExperiments.Vanishling.Server
import GoExperiments.Vanishling.Expiry
import GoExperiments.Vanishling.Download
import GoExperiments.Vanishling.Serving
import GoExperiments.Vanishling.Contents
import GoExperiments.Ldap.Passwd
import GoExperiments.Ldap.Filter
import GoExperiments.KafkaRestarter
import GoExperiments.Dockerfile
import GoExperiments.ListIntersect
import GoExperiments.LeakyBucket
import GoExperiments.SliceDelete
import GoExperiments.Bloom
import GoExperiments.Aes
import GoExperiments.VaultSecrets
import GoExperiments.Alloc.Sizes
import GoExperiments.Alloc.Machine
import GoExperiments.Alloc.Layout
import GoExperiments.Alloc.Mapping
import GoExperiments.Alloc.Nodes
import GoExperiments.Alloc.Invariant
import GoExperiments.Alloc.Slots
import GoExperiments.Alloc.Release
import GoExperiments.Alloc.Malloc
import GoExperiments.Alloc.Client
import GoExperiments.Alloc.Heap
import GoExperiments.Alloc.Program
